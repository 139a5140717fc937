import HashComp.BzTree.Layout
import HashComp.BzTree.Merging

/-!
A node that is frozen stays as it is.  Every word that is exchanged goes with the
status word, read as not frozen, and the bytes that are written without it belong to
records that nobody has seen, unless a key is too long for its padded length to be
counted in 16 bits.
-/

namespace HashComp.BzTree

open HashComp.ByteMemory
open HashComp.Runs
open HashComp.Threads

/-- The status word, the metadata and the visible records of a node are as before. -/
structure Immutable (n n' : BaseNode) : Prop where
  status : n'.status = n.status
  metadata : n'.recordMetadata = n.recordMetadata
  bytes : ∀ i offset keyLength totalLength,
    n.recordMetadata i = .record true offset keyLength totalLength →
      readBytes n'.data offset totalLength = readBytes n.data offset totalLength
  payload : ∀ i offset keyLength totalLength,
    n.recordMetadata i = .record true offset keyLength totalLength →
      n'.payload offset keyLength = n.payload offset keyLength

section Leaf

variable {parameters : ParameterSet} {n n' n'' : BaseNode} {threads : Nat → Option LeafPc} {t : Nat}
  {l l' : LeafPc}

theorem Immutable.refl (n : BaseNode) : Immutable n n :=
  ⟨rfl, rfl, fun _ _ _ _ _ => rfl, fun _ _ _ _ _ => rfl⟩

theorem Immutable.trans (h : Immutable n n') (h' : Immutable n' n'') : Immutable n n'' := by
  have hm : ∀ {i m}, n.recordMetadata i = m → n'.recordMetadata i = m :=
    fun hi => (congrFun h.metadata _).trans hi
  exact ⟨h'.status.trans h.status, h'.metadata.trans h.metadata,
    fun i o kl tl hi => (h'.bytes i o kl tl (hm hi)).trans (h.bytes i o kl tl hi),
    fun i o kl tl hi => (h'.payload i o kl tl (hm hi)).trans (h.payload i o kl tl hi)⟩

/-- Bytes written to a region whose slot is reserved belong to no visible record. -/
theorem Laid.immutable_write (h : Laid parameters n threads) (hl : threads t = some l) {key : Key}
    {r : Reserved} {data : Memory} (hlr : l.reserved? = some (key, r))
    (hdata : ∀ x, x < r.place ∨ r.place + key.totalSize ≤ x → data x = n.data x) :
    Immutable n { n with data := data } := by
  have hsame : ∀ i offset keyLength totalLength,
      n.recordMetadata i = .record true offset keyLength totalLength →
      padKeyLength keyLength + 8 = totalLength ∧
        ∀ x, offset ≤ x → x < offset + totalLength → data x = n.data x := by
    intro i offset keyLength totalLength hi
    obtain ⟨hpad, hpos⟩ := h.records.lengths i _ _ _ _ hi
    have hne : i ≠ r.slot := by
      rintro rfl
      rw [(h.reserved t l key r hl hlr).1] at hi
      cases hi
    have hapart := h.apart i r.slot offset totalLength r.place key.totalSize
      (.record hi (hpos rfl)) (.owner hl hlr rfl rfl rfl) hne
    refine ⟨hpad, fun x hlo hhi => hdata x ?_⟩
    rcases hapart with hap | hap
    · exact Or.inl (by omega)
    · exact Or.inr (by omega)
  refine ⟨rfl, rfl, fun i o kl tl hi => readBytes_congr (hsame i o kl tl hi).2,
    fun i o kl tl hi => ?_⟩
  obtain ⟨hpad, hx⟩ := hsame i o kl tl hi
  have hword : readBytes data (o + padKeyLength kl) 8 = readBytes n.data (o + padKeyLength kl) 8 :=
    readBytes_congr fun x hlo hhi => hx x (by omega) (by omega)
  exact congrArg (List.foldr _ _) hword

/-- A step on a frozen leaf writes at most to a region whose slot is reserved. -/
theorem Laid.immutable (h : Laid parameters n threads) (hl : threads t = some l)
    (hfrozen : n.status.frozen = true) (hc : Change parameters n l n' l') : Immutable n n' := by
  have hopen : ∀ {p : Prop}, n.status.frozen = false → p := by
    intro p hf
    rw [hf] at hfrozen
    cases hfrozen
  cases hc with
  | quiet => exact Immutable.refl n
  | reserve _ ho _ _ _ | finalize _ _ ho _ | update _ ho _ _ | delete _ ho _ _ | freeze _ ho _ =>
      exact hopen ho
  | write hlr _ _ hdata => exact h.immutable_write hl hlr hdata

theorem Laid.freeze (h : Laid parameters n threads) : Laid parameters n.freeze threads := by
  have hholds : ∀ i offset len, Holds n.freeze threads i offset len → Holds n threads i offset len := by
    intro i offset len hh
    cases hh with
    | record hm hne => exact .record hm hne
    | owner hl hr hi hp hlen => exact .owner hl hr hi hp hlen
  exact ⟨h.size, h.fits, ⟨h.records.slots, h.records.sorted, h.records.settled, h.records.lengths⟩,
    fun i o len hi => h.within i o len (hholds i o len hi),
    fun i j o len o' len' hi hj => h.apart i j o len o' len' (hholds i o len hi) (hholds j o' len' hj),
    h.reserved, h.unique, h.localOk⟩

theorem freeze_of_frozen (h : n.status.frozen = true) : n.freeze = n := by
  cases n with
  | mk isLeaf size status sortedCount recordMetadata data =>
      cases status with
      | mk frozen recordCount blockSize deletedSize =>
          cases h
          rfl

end Leaf

section Copies

def BaseNode.Row.Ok (row : BaseNode.Row) : Prop :=
  padKeyLength row.keyLength + 8 = row.totalLength

variable {parameters : ParameterSet} {n m : BaseNode} {i offset : Nat}

abbrev nobody : Nat → Option LeafPc :=
  fun _ => none

theorem holds_nobody {len : Nat} (h : Holds n nobody i offset len) :
    ∃ visible keyLength, n.recordMetadata i = .record visible offset keyLength len ∧ offset ≠ 0 := by
  cases h with
  | record hm ho => exact ⟨_, _, hm, ho⟩
  | owner hl => cases hl

theorem copyRecord_laid {row? : Option BaseNode.Row} {r : BaseNode × Nat × Nat}
    (hrow : ∀ row, row? = some row → row.Ok) (hle : offset ≤ n.size)
    (h : Laid parameters (BaseNode.finishCopy (n, i, offset)) nobody)
    (hc : BaseNode.copyRecord row? (n, i, offset) = some r) :
    Laid parameters (BaseNode.finishCopy r) nobody ∧ r.2.2 ≤ r.1.size := by
  obtain ⟨row, rfl, hcopy⟩ := Option.bind_eq_some_iff.mp hc
  clear hc
  split at hcopy
  · rename_i hroom
    cases hcopy
    have hok := hrow row rfl
    have hsize : n.size = parameters.leafNodeSize := h.size
    have hoff : offset - row.totalLength ≠ 0 := by omega
    have hfin : RecordMetadata.finalizeForInsert (offset - row.totalLength) row.keyLength
        row.totalLength = .record true (offset - row.totalLength) row.keyLength row.totalLength := by
      simp [RecordMetadata.finalizeForInsert, hoff]
    have hslots : ∀ j, n.recordMetadata j = .vacant ↔ i ≤ j := h.records.slots
    -- an entry is the new one, or an old one below it
    have hmeta : ∀ {j v o kl tl}, (n.setMetadata i (.finalizeForInsert (offset - row.totalLength)
        row.keyLength row.totalLength)).recordMetadata j = .record v o kl tl →
        (j = i ∧ o = offset - row.totalLength ∧ kl = row.keyLength ∧ tl = row.totalLength) ∨
          (j < i ∧ n.recordMetadata j = .record v o kl tl) := by
      intro j v o kl tl hj
      rcases eq_or_ne j i with rfl | hne
      · rw [setMetadata_self, hfin] at hj
        cases hj
        exact Or.inl ⟨rfl, rfl, rfl, rfl⟩
      · rw [setMetadata_of_ne hne] at hj
        refine Or.inr ⟨Nat.lt_of_not_le fun hij => ?_, hj⟩
        rw [(hslots j).mpr hij] at hj
        cases hj
    have hwithin : ∀ {j v o kl tl}, n.recordMetadata j = .record v o kl tl → o ≠ 0 →
        offset ≤ o ∧ o + tl ≤ n.size := by
      intro j v o kl tl hj ho
      have hin := h.within j o tl (.record (n := BaseNode.finishCopy (n, i, offset)) hj ho)
      have hin' : n.size ≤ o + (n.size - offset) ∧ o + tl ≤ n.size := hin
      omega
    refine ⟨⟨hsize, ?_, ⟨fun j => ?_, Nat.le_refl _, fun j hj => ?_, fun j v o kl tl hj => ?_⟩,
      fun j o len hj => ?_, fun j k o len o' len' hj hk hjk => ?_,
      fun t l key r hl => absurd hl (Option.some_ne_none l).symm,
      fun t t' l l' key key' r r' hl => absurd hl (Option.some_ne_none l).symm,
      fun t l hl => absurd hl (Option.some_ne_none l).symm⟩, ?_⟩
    · show 32 + (n.size - (offset - row.totalLength)) + (i + 1) * 8 ≤ n.size
      omega
    · show (n.setMetadata i _).recordMetadata j = .vacant ↔ i + 1 ≤ j
      rcases eq_or_ne j i with rfl | hne
      · rw [setMetadata_self, hfin]
        exact ⟨nofun, fun hj => absurd hj (Nat.not_succ_le_self _)⟩
      · rw [setMetadata_of_ne hne, hslots]
        omega
    · show (n.setMetadata i _).recordMetadata j ≠ .inserting
      rcases eq_or_ne j i with rfl | hne
      · rw [setMetadata_self, hfin]
        nofun
      · rw [setMetadata_of_ne hne]
        have hj' : j < i + 1 := hj
        exact h.records.settled j (by show j < i; omega)
    · rcases hmeta hj with ⟨-, rfl, rfl, rfl⟩ | ⟨-, hj⟩
      · exact ⟨hok, fun _ => hoff⟩
      · exact h.records.lengths j v o kl tl hj
    · obtain ⟨v, kl, hm, ho⟩ := holds_nobody hj
      show n.size ≤ o + (n.size - (offset - row.totalLength)) ∧ o + len ≤ n.size
      rcases hmeta hm with ⟨-, rfl, -, rfl⟩ | ⟨-, hold⟩
      · omega
      · have := hwithin hold ho
        omega
    · obtain ⟨v, kl, hm, ho⟩ := holds_nobody hj
      obtain ⟨v', kl', hm', ho'⟩ := holds_nobody hk
      rcases hmeta hm with ⟨hji, rfl, -, rfl⟩ | ⟨-, hold⟩
      · rcases hmeta hm' with ⟨hki, -⟩ | ⟨-, hold'⟩
        · exact absurd (hji.trans hki.symm) hjk
        · have := hwithin hold' ho'
          exact Or.inl (by omega)
      · rcases hmeta hm' with ⟨-, rfl, -, rfl⟩ | ⟨-, hold'⟩
        · have := hwithin hold ho
          exact Or.inr (by omega)
        · exact h.apart j k o len o' len' (.record hold ho) (.record hold' ho') hjk
    · show offset - row.totalLength ≤ n.size
      omega
  · cases hcopy

theorem copyRecords_laid {rows : List (Option BaseNode.Row)} {r r' : BaseNode × Nat × Nat}
    (hrows : ∀ row, some row ∈ rows → row.Ok) (hle : r.2.2 ≤ r.1.size)
    (h : Laid parameters (BaseNode.finishCopy r) nobody)
    (hc : BaseNode.copyRecords rows r = some r') :
    Laid parameters (BaseNode.finishCopy r') nobody := by
  induction rows generalizing r with
  | nil =>
      cases hc
      exact h
  | cons row? rows ih =>
      obtain ⟨r₁, hr₁, hc⟩ := Option.bind_eq_some_iff.mp hc
      obtain ⟨h₁, hle₁⟩ := copyRecord_laid (fun row hr => hrows row (hr ▸ List.mem_cons_self)) hle h hr₁
      exact ih (fun row hr => hrows row (List.mem_cons_of_mem _ hr)) hle₁ h₁ hc

theorem copyFrom_laid {rows : List (Option BaseNode.Row)} (hrows : ∀ row, some row ∈ rows → row.Ok)
    (hc : BaseNode.copyFrom parameters.leafNodeSize rows = some n) : Laid parameters n nobody := by
  obtain ⟨r, hr, rfl⟩ := Option.map_eq_some_iff.mp hc
  refine copyRecords_laid hrows (Nat.le_refl _) ?_ hr
  have hnew : BaseNode.finishCopy (BaseNode.new true parameters.leafNodeSize, 0,
      parameters.leafNodeSize) = BaseNode.new true parameters.leafNodeSize := by
    simp [BaseNode.finishCopy, BaseNode.new]
  rw [hnew]
  exact laid_new

theorem keyRow_ok {threads : Nat → Option LeafPc} (h : Laid parameters n threads) {row : BaseNode.Row}
    (hi : n.keyRow (n.recordMetadata i) = some row) : row.Ok := by
  obtain ⟨key, -, hi⟩ := Option.bind_eq_some_iff.mp hi
  cases hm : n.recordMetadata i with
  | vacant | inserting =>
      rw [hm] at hi
      cases hi
  | record v o kl tl =>
      rw [hm] at hi
      cases hi
      exact (h.records.lengths i v o kl tl hm).1

theorem mergeLeafNodes_laid {threads threads' : Nat → Option LeafPc} (h : Laid parameters n threads)
    (h' : Laid parameters m threads') {new : BaseNode} (hm : n.mergeLeafNodes m = some new) :
    Laid parameters new nobody := by
  have hmem : ∀ {n : BaseNode} {threads}, Laid parameters n threads → ∀ row : BaseNode.Row,
      some row ∈ n.sortedMetadata.map n.keyRow → row.Ok := by
    intro n threads h row hrow
    obtain ⟨x, hx, hrow⟩ := List.mem_map.mp hrow
    obtain ⟨hx, -⟩ := List.mem_filter.mp ((List.mem_insertionSort _).mp hx)
    obtain ⟨i, -, rfl⟩ := List.mem_map.mp hx
    exact keyRow_ok h hrow
  rw [BaseNode.mergeLeafNodes, h.size] at hm
  refine copyFrom_laid (fun row hrow => ?_) hm
  rcases List.mem_append.mp hrow with hrow | hrow
  · exact hmem h row hrow
  · exact hmem h' row hrow

end Copies

section Tree

def TreePc.at? (a : Addr) : TreePc → Option LeafPc
  | .leaf b l => if b = a then some l else none
  | _ => none

def working (threads : Nat → Option TreePc) (a : Addr) (t : Nat) : Option LeafPc :=
  (threads t).bind (TreePc.at? a)

def SwapPc.LocalOk : SwapPc → Prop
  | .status => True
  | .swap s => s.frozen = false

def TreePc.LocalOk (parameters : ParameterSet) : TreePc → Prop
  | .leaf _ l => l.LocalOk parameters
  | .updateChild _ _ _ _ pc => pc.LocalOk
  | .merge _ _ (.update _ _ _ _ pc) => pc.LocalOk
  | _ => True

structure TreeInv (parameters : ParameterSet) (h : Heap) (threads : Nat → Option TreePc) : Prop where
  laid : ∀ a n, h.nodes a = some n → n.isLeaf = true → Laid parameters n (working threads a)
  unallocated : ∀ a t l, h.nodes a = none → working threads a t = some l → l.reserved? = none
  fresh : ∀ a, h.fresh ≤ a → h.nodes a = none
  localOk : ∀ t pc, threads t = some pc → pc.LocalOk parameters

inductive HeapChange (parameters : ParameterSet) (h : Heap) (pc : TreePc) : Heap → TreePc → Prop
  | quiet {pc' : TreePc} {root : Addr} (hpc : ∀ a, pc'.at? a = none) :
      HeapChange parameters h pc { h with root := root } pc'
  | leaf {a : Addr} {l : LeafPc} {n : BaseNode} (hpc : pc = .leaf a l) (hn : h.nodes a = some n)
      (hkind : n.isLeaf = true ∨ l.isFreeze = true) :
      HeapChange parameters h pc (h.set a (leafStep parameters n l).1)
        ((leafStep parameters n l).2.inTree a)
  | freeze {pc' : TreePc} {as : List Addr} (hpc : ∀ a, pc'.at? a = none) :
      HeapChange parameters h pc (h.freezeAll as) pc'
  | swap {pc' : TreePc} {a : Addr} {n : BaseNode} {data : Memory} (hn : h.nodes a = some n)
      (hinternal : n.isLeaf = false) (hopen : n.status.frozen = false) (hpc : ∀ a, pc'.at? a = none) :
      HeapChange parameters h pc (h.set a { n with data := data }) pc'
  | allocate {pc' : TreePc} {a b : Addr} {left right n p : BaseNode} (hleft : h.nodes a = some left)
      (hright : h.nodes b = some right) (hkind : n.isLeaf = true → left.isLeaf = true ∧
        right.isLeaf = true ∧ (left.mergeLeafNodes right = some n ∨ right.mergeLeafNodes left = some n))
      (hp : p.isLeaf = false)
      (hpc : ∀ a, pc'.at? a = none) : HeapChange parameters h pc (h.allocate n p) pc'

section Steps

variable {parameters : ParameterSet} {h : Heap} {op : TreeOp} {c : MergeCall} {a : Addr}
  {pc : TreePc}

@[simp] theorem ret_at? {rc : ReturnCode} : (c.ret op rc).at? a = none := by
  unfold MergeCall.ret
  split <;> rfl

@[simp] theorem reached_at? {b : Addr} {n : BaseNode} : (c.reached op b n).at? a = none := by
  rw [MergeCall.reached]
  split
  · split
    · rfl
    · split
      · exact ret_at?
      · rfl
  · rfl

@[simp] theorem unsuitable_at? {f : Frame} {left : Bool} :
    (c.unsuitable op f left).at? a = none := by
  rw [MergeCall.unsuitable]
  split
  · rfl
  · exact ret_at?

@[simp] theorem updated_at? {b : Addr} {inside : SwapPc → MergePc} {o : Outcome SwapPc} :
    (c.updated op b inside o).at? a = none := by
  cases o with
  | goto pc => rfl
  | abort => rfl
  | ret rc =>
      cases rc with
      | ok => rfl
      | keyExists | notFound | nodeFrozen | pmwcasFailure | notEnoughSpace => exact ret_at?

theorem ret_localOk {rc : ReturnCode} : (c.ret op rc).LocalOk parameters := by
  unfold MergeCall.ret
  split <;> trivial

theorem reached_localOk {b : Addr} {n : BaseNode} : (c.reached op b n).LocalOk parameters := by
  rw [MergeCall.reached]
  split
  · split
    · trivial
    · split
      · exact ret_localOk
      · trivial
  · trivial

theorem unsuitable_localOk {f : Frame} {left : Bool} :
    (c.unsuitable op f left).LocalOk parameters := by
  rw [MergeCall.unsuitable]
  split
  · trivial
  · exact ret_localOk

/-- `Update` of an internal node leaves the nodes alone or sets a child of one that is
not frozen. -/
theorem internalUpdate_change {pc : TreePc} {m : RecordMetadata} {oldChild newChild : Addr}
    {swap : SwapPc} (hok : swap.LocalOk) (place : Outcome SwapPc → TreePc)
    (hpc : ∀ o b, (place o).at? b = none) :
    HeapChange parameters h pc (internalUpdate h a m oldChild newChild swap).1
      (place (internalUpdate h a m oldChild newChild swap).2) := by
  cases swap with
  | status =>
      simp only [internalUpdate]
      split
      · split
        · exact .quiet (hpc _)
        · split <;> exact .quiet (hpc _)
      · exact .quiet (hpc _)
  | swap s =>
      simp only [internalUpdate]
      split
      · rename_i n visible offset keyLength totalLength hn
        split
        · exact .quiet (hpc _)
        · rename_i hkind
          split
          · rename_i hs
            obtain ⟨rfl, -⟩ := hs
            exact .swap hn (Bool.eq_false_iff.mpr hkind) hok (hpc _)
          · exact .quiet (hpc _)
      · exact .quiet (hpc _)

theorem copyRecords_isLeaf {rows : List (Option BaseNode.Row)} {r r' : BaseNode × Nat × Nat}
    (hc : BaseNode.copyRecords rows r = some r') : r'.1.isLeaf = r.1.isLeaf := by
  induction rows generalizing r with
  | nil =>
      cases hc
      rfl
  | cons row? rows ih =>
      obtain ⟨r₁, hr₁, hc⟩ := Option.bind_eq_some_iff.mp hc
      refine (ih hc).trans ?_
      obtain ⟨n, i, offset⟩ := r
      obtain ⟨row, -, hcopy⟩ := Option.bind_eq_some_iff.mp hr₁
      split at hcopy
      · cases hcopy
        rfl
      · cases hcopy

theorem copyChildren_isLeaf {size : Nat} {rows : List (Option BaseNode.Row)} {n : BaseNode}
    (hc : BaseNode.copyChildren size rows = some n) : n.isLeaf = false := by
  obtain ⟨r, hr, rfl⟩ := Option.map_eq_some_iff.mp hc
  exact copyRecords_isLeaf hr

theorem deleteRecord_isLeaf {n p : BaseNode} {i : Nat} {w : Word} (hd : p.deleteRecord i w = some n) :
    n.isLeaf = false := by
  simp only [BaseNode.deleteRecord] at hd
  split at hd
  · exact copyChildren_isLeaf hd
  · cases hd

theorem mergedNodes_leaf {n s p new newParent : BaseNode} {metaIndex siblingIndex : Nat} {b : Addr}
    (hm : BaseNode.mergedNodes n s p metaIndex siblingIndex b = some (new, newParent)) :
    newParent.isLeaf = false ∧ (new.isLeaf = true → n.isLeaf = true ∧ s.isLeaf = true ∧
      (n.mergeLeafNodes s = some new ∨ s.mergeLeafNodes n = some new)) := by
  rw [BaseNode.mergedNodes] at hm
  split at hm
  · cases hm
  · rename_i hkind
    obtain ⟨new', hnew, hm⟩ := Option.bind_eq_some_iff.mp hm
    obtain ⟨p', hp, hm⟩ := Option.map_eq_some_iff.mp hm
    cases hm
    refine ⟨deleteRecord_isLeaf hp, fun hleaf => ?_⟩
    have hsame : n.isLeaf = s.isLeaf := by
      by_contra hne
      exact hkind (Or.inl hne)
    cases hn : n.isLeaf with
    | false =>
        rw [hn, if_neg (by simp)] at hnew
        rw [copyChildren_isLeaf hnew] at hleaf
        cases hleaf
    | true =>
        refine ⟨rfl, hsame.symm.trans hn, ?_⟩
        rw [hn, if_pos rfl] at hnew
        cases hside : decide (siblingIndex < metaIndex) with
        | true =>
            rw [hside] at hnew
            exact Or.inr hnew
        | false =>
            rw [hside] at hnew
            exact Or.inl hnew

theorem mergeStep_change {pc : MergePc} (hok : (TreePc.merge op c pc).LocalOk parameters) :
    HeapChange parameters h (.merge op c pc) (mergeStep parameters h op c pc).1
      (mergeStep parameters h op c pc).2 := by
  have hquiet : ∀ pc' : TreePc, (∀ b, pc'.at? b = none) →
      HeapChange parameters h (.merge op c pc) h pc' := fun _ => .quiet
  have hret : ∀ rc root, HeapChange parameters h (.merge op c pc) { h with root := root }
      (c.ret op rc) := fun _ _ => .quiet fun _ => ret_at?
  have hun : ∀ f left, HeapChange parameters h (.merge op c pc) h (c.unsuitable op f left) :=
    fun _ _ => .quiet fun _ => unsuitable_at?
  cases pc with
  | threshold =>
      simp only [mergeStep]
      split
      · exact hquiet _ fun _ => rfl
      · split
        · exact hret .ok _
        · split
          · exact hret .ok _
          · exact hquiet _ fun _ => rfl
  | child f left =>
      simp only [mergeStep]
      split
      · exact hquiet _ fun _ => rfl
      · split
        · exact hquiet _ fun _ => rfl
        · split
          · split <;> exact hquiet _ fun _ => rfl
          · exact hun _ _
  | weigh f left sibling =>
      simp only [mergeStep]
      split
      · exact hquiet _ fun _ => rfl
      · split
        · exact hquiet _ fun _ => rfl
        · exact hun _ _
  | sibling f i | nodeStatus f i sibling | siblingStatus f i sibling s =>
      simp only [mergeStep]
      split <;> exact hquiet _ fun _ => rfl
  | parentStatus f i sibling s s' =>
      simp only [mergeStep]
      split
      · exact hquiet _ fun _ => rfl
      · split
        · exact hret _ _
        · exact hquiet _ fun _ => rfl
  | freeze f i sibling s s' s'' =>
      simp only [mergeStep]
      split
      · exact .freeze fun _ => rfl
      · exact hret _ _
  | build f i sibling =>
      simp only [mergeStep]
      split
      · rename_i n s p hn hs hp
        split
        · rename_i new newParent hm
          obtain ⟨hparent, hleaf⟩ := mergedNodes_leaf hm
          exact .allocate hn hs hleaf hparent fun _ => rfl
        · exact hquiet _ fun _ => rfl
      · exact hquiet _ fun _ => rfl
  | install f newParent =>
      simp only [mergeStep]
      split
      · split
        · exact hret .ok _
        · exact hret _ _
      · split <;> exact hquiet _ fun _ => rfl
  | update f g newParent m pc =>
      exact internalUpdate_change hok (c.updated op newParent (.update f g newParent m)) fun _ _ => updated_at?
  | landRoot =>
      simp only [mergeStep]
      split
      · exact hquiet _ fun _ => rfl
      · exact hquiet _ fun _ => reached_at?
  | descend a =>
      simp only [mergeStep]
      split
      · exact hquiet _ fun _ => rfl
      · split
        · split
          · exact hquiet _ fun _ => rfl
          · exact hquiet _ fun _ => reached_at?
        · exact hquiet _ fun _ => rfl

theorem treeStep_change (hok : pc.LocalOk parameters) :
    HeapChange parameters h pc (treeStep parameters h pc).1 (treeStep parameters h pc).2 := by
  cases pc with
  | leaf a l =>
      simp only [treeStep]
      split
      · exact .quiet fun _ => rfl
      · rename_i n hn
        split
        · rename_i hkind
          exact .leaf rfl hn hkind
        · exact .quiet fun _ => rfl
  | updateChild a m oldChild newChild pc =>
      exact internalUpdate_change hok (·.inTree a m oldChild newChild) fun o b => by cases o <;> rfl
  | merge op c pc => exact mergeStep_change hok
  | done op rc => exact .quiet fun _ => rfl
  | aborted => exact .quiet fun _ => rfl

theorem internalUpdate_localOk {m : RecordMetadata} {oldChild newChild : Addr} {swap swap' : SwapPc}
    (hswap : (internalUpdate h a m oldChild newChild swap).2 = .goto swap') : swap'.LocalOk := by
  cases swap with
  | status =>
      simp only [internalUpdate] at hswap
      split at hswap
      · split at hswap
        · cases hswap
        · split at hswap
          · cases hswap
          · rename_i hopen
            cases hswap
            exact Bool.eq_false_iff.mpr hopen
      · cases hswap
  | swap s =>
      simp only [internalUpdate] at hswap
      split at hswap
      · split at hswap
        · cases hswap
        · split at hswap <;> cases hswap
      · cases hswap

theorem inTree_localOk {l : LeafPc} (hok : l.LocalOk parameters) :
    (l.inTree a).LocalOk parameters := by
  cases l with
  | insert | update | delete | freeze => exact hok
  | done | aborted => trivial

theorem mergeStep_localOk {pc : MergePc} :
    (mergeStep parameters h op c pc).2.LocalOk parameters := by
  have hret : ∀ rc, (c.ret op rc).LocalOk parameters := fun _ => ret_localOk
  have hun : ∀ f left, (c.unsuitable op f left).LocalOk parameters := fun _ _ => unsuitable_localOk
  cases pc with
  | threshold =>
      simp only [mergeStep]
      split
      · trivial
      · split
        · exact hret .ok
        · split
          · exact hret .ok
          · trivial
  | child f left =>
      simp only [mergeStep]
      split
      · trivial
      · split
        · trivial
        · split
          · split <;> trivial
          · exact hun _ _
  | weigh f left sibling =>
      simp only [mergeStep]
      split
      · trivial
      · split
        · trivial
        · exact hun _ _
  | sibling f i | nodeStatus f i sibling | siblingStatus f i sibling s =>
      simp only [mergeStep]
      split <;> trivial
  | parentStatus f i sibling s s' =>
      simp only [mergeStep]
      split
      · trivial
      · split
        · exact hret _
        · trivial
  | freeze f i sibling s s' s'' =>
      simp only [mergeStep]
      split
      · trivial
      · exact hret _
  | build f i sibling =>
      simp only [mergeStep]
      split
      · split <;> trivial
      · trivial
  | install f newParent =>
      simp only [mergeStep]
      split
      · split
        · exact hret .ok
        · exact hret _
      · split <;> trivial
  | update f g newParent m pc =>
      simp only [mergeStep]
      cases ho : (internalUpdate h g.node m f.node newParent pc).2 with
      | goto pc' => exact internalUpdate_localOk ho
      | abort => trivial
      | ret rc =>
          cases rc with
          | ok => trivial
          | keyExists | notFound | nodeFrozen | pmwcasFailure | notEnoughSpace => exact hret _
  | landRoot =>
      simp only [mergeStep]
      split
      · trivial
      · exact reached_localOk
  | descend a =>
      simp only [mergeStep]
      split
      · trivial
      · split
        · split
          · trivial
          · exact reached_localOk
        · trivial

theorem treeStep_localOk (hok : pc.LocalOk parameters) :
    (treeStep parameters h pc).2.LocalOk parameters := by
  cases pc with
  | leaf a l =>
      simp only [treeStep]
      split
      · trivial
      · split
        · exact inTree_localOk (leafStep_localOk hok)
        · trivial
  | updateChild a m oldChild newChild pc =>
      simp only [treeStep]
      cases ho : (internalUpdate h a m oldChild newChild pc).2 with
      | goto pc' => exact internalUpdate_localOk ho
      | ret | abort => trivial
  | merge op c pc => exact mergeStep_localOk
  | done | aborted => trivial

end Steps

section Invariant

variable {parameters : ParameterSet} {h h' : Heap} {threads : Nat → Option TreePc} {t : Nat}
  {pc pc' : TreePc} {a b : Addr} {n : BaseNode}

theorem working_update {o : Option TreePc} : working (Function.update threads t o) a =
    Function.update (working threads a) t (o.bind (TreePc.at? a)) := by
  funext u
  rcases eq_or_ne u t with rfl | hne
  · rw [working, Function.update_self, Function.update_self]
  · rw [working, Function.update_of_ne hne, Function.update_of_ne hne, working]

theorem inTree_at? {l m : LeafPc} (hm : (l.inTree a).at? b = some m) : a = b ∧ m = l := by
  cases l with
  | done | aborted => cases hm
  | insert | update | delete | freeze =>
      simp only [LeafPc.inTree, TreePc.at?] at hm
      split at hm
      · cases hm
        exact ⟨‹_›, rfl⟩
      · cases hm

theorem working_of_leaf {l : LeafPc} (ht : threads t = some (.leaf a l)) :
    working threads a t = some l := by
  rw [working, ht]
  exact if_pos rfl

theorem Change.isLeaf {n' : BaseNode} {l l' : LeafPc} (hc : Change parameters n l n' l') :
    n'.isLeaf = n.isLeaf := by
  cases hc <;> rfl

theorem leafStep_of_isFreeze {l : LeafPc} (hl : l.isFreeze = true) (hok : l.LocalOk parameters)
    (hfrozen : n.status.frozen = true) : (leafStep parameters n l).1 = n := by
  cases l with
  | insert | update | delete | done | aborted => cases hl
  | freeze pc =>
      cases pc with
      | read =>
          simp only [leafStep, freezeStep]
          split <;> rfl
      | swap expected =>
          simp only [leafStep, freezeStep]
          split
          · rename_i he
            rw [he] at hfrozen
            have hopen : expected.frozen = false := hok
            rw [hopen] at hfrozen
            cases hfrozen
          · rfl

theorem TreeInv.laid_elsewhere (hi : TreeInv parameters h threads) (hn : h.nodes a = some n)
    (hleaf : n.isLeaf = true) (hpc : pc'.at? a = none) :
    Laid parameters n (working (Function.update threads t (some pc')) a) := by
  rw [working_update, Option.bind_some, hpc]
  exact (hi.laid a n hn hleaf).update nofun

theorem TreeInv.localOk_update (hi : TreeInv parameters h threads) (hok : pc'.LocalOk parameters) :
    ∀ u m, Function.update threads t (some pc') u = some m → m.LocalOk parameters := by
  intro u m hm
  rcases update_eq_some hm with ⟨-, hm⟩ | ⟨-, hm⟩
  · cases hm
    exact hok
  · exact hi.localOk u m hm

theorem TreeInv.unallocated_elsewhere (hi : TreeInv parameters h threads) (hn : h.nodes a = none)
    (hpc : pc'.at? a = none) {u : Nat} {m : LeafPc}
    (hm : working (Function.update threads t (some pc')) a u = some m) : m.reserved? = none := by
  rw [working_update, Option.bind_some, hpc] at hm
  rcases update_eq_some hm with ⟨-, hm⟩ | ⟨-, hm⟩
  · cases hm
  · exact hi.unallocated a u m hn hm

theorem TreeInv.set (hi : TreeInv parameters h threads) (hn : h.nodes a = some n)
    (hok : pc'.LocalOk parameters) {n' : BaseNode} (haway : ∀ b, b ≠ a → pc'.at? b = none)
    (hlaid : n'.isLeaf = true →
      Laid parameters n' (working (Function.update threads t (some pc')) a)) :
    TreeInv parameters (h.set a n') (Function.update threads t (some pc')) := by
  have hself : (h.set a n').nodes a = some n' := Function.update_self ..
  have hother : ∀ {b}, b ≠ a → (h.set a n').nodes b = h.nodes b := fun hb => Function.update_of_ne hb ..
  refine ⟨fun b m hb hleaf => ?_, fun b u m hb hm => ?_, fun b hb => ?_, hi.localOk_update hok⟩
  · rcases eq_or_ne b a with rfl | hne
    · cases hself.symm.trans hb
      exact hlaid hleaf
    · exact hi.laid_elsewhere ((hother hne).symm.trans hb) hleaf (haway b hne)
  · have hne : b ≠ a := by
      rintro rfl
      cases hself.symm.trans hb
    exact hi.unallocated_elsewhere ((hother hne).symm.trans hb) (haway b hne) hm
  · have hne : b ≠ a := by
      rintro rfl
      rw [hi.fresh b hb] at hn
      cases hn
    exact (hother hne).trans (hi.fresh b hb)

theorem working_localOk (hok : ∀ u m, threads u = some m → m.LocalOk parameters) {u : Nat} {m : LeafPc}
    (hm : working threads a u = some m) : m.LocalOk parameters := by
  obtain ⟨pc₁, hpc₁, hm⟩ := Option.bind_eq_some_iff.mp hm
  have hok₁ := hok u pc₁ hpc₁
  cases pc₁ with
  | updateChild | merge | done | aborted => cases hm
  | leaf b l =>
      simp only [TreePc.at?] at hm
      split at hm
      · cases hm
        exact hok₁
      · cases hm

/-- The nodes of a merge come to addresses where nobody has reserved anything. -/
theorem TreeInv.allocate (hi : TreeInv parameters h threads) (hok : pc'.LocalOk parameters)
    (hpc : ∀ b, pc'.at? b = none) {newParent : BaseNode} (hp : newParent.isLeaf = false)
    (hlaid : n.isLeaf = true → Laid parameters n nobody) :
    TreeInv parameters (h.allocate n newParent) (Function.update threads t (some pc')) := by
  have hother : ∀ {b}, b ≠ h.fresh → b ≠ h.fresh + 1 →
      (h.allocate n newParent).nodes b = h.nodes b :=
    fun hb hb' => (Function.update_of_ne hb' ..).trans (Function.update_of_ne hb ..)
  have hfresh : (h.allocate n newParent).nodes h.fresh = some n :=
    (Function.update_of_ne (Nat.ne_of_lt (Nat.lt_succ_self _)) ..).trans (Function.update_self ..)
  have hparent : (h.allocate n newParent).nodes (h.fresh + 1) = some newParent :=
    Function.update_self ..
  refine ⟨fun b m hb hleaf => ?_, fun b u m hb hm => ?_, fun b hb => ?_, hi.localOk_update hok⟩
  · rcases eq_or_ne b h.fresh with rfl | hne
    · cases hfresh.symm.trans hb
      refine (hlaid hleaf).of_threads (fun u m key r hm hres => ?_) fun u m hm =>
        working_localOk (hi.localOk_update hok) hm
      rw [hi.unallocated_elsewhere (hi.fresh _ (Nat.le_refl _)) (hpc _) hm] at hres
      cases hres
    · rcases eq_or_ne b (h.fresh + 1) with rfl | hne'
      · cases hparent.symm.trans hb
        rw [hp] at hleaf
        cases hleaf
      · exact hi.laid_elsewhere ((hother hne hne').symm.trans hb) hleaf (hpc b)
  · have hne : b ≠ h.fresh := by
      rintro rfl
      cases hfresh.symm.trans hb
    have hne' : b ≠ h.fresh + 1 := by
      rintro rfl
      cases hparent.symm.trans hb
    exact hi.unallocated_elsewhere ((hother hne hne').symm.trans hb) (hpc b) hm
  · have hlt : h.fresh + 1 < b := hb
    have hlt' : h.fresh < b := Nat.lt_of_succ_lt hlt
    exact (hother (Nat.ne_of_gt hlt') (Nat.ne_of_gt hlt)).trans (hi.fresh b (Nat.le_of_lt hlt'))

theorem TreeInv.freezeAll (hi : TreeInv parameters h threads) (hok : pc'.LocalOk parameters)
    (hpc : ∀ b, pc'.at? b = none) {as : List Addr} :
    TreeInv parameters (h.freezeAll as) (Function.update threads t (some pc')) := by
  refine ⟨fun b m hb hleaf => ?_, fun b u m hb hm => ?_, fun b hb => ?_, hi.localOk_update hok⟩
  · simp only [Heap.freezeAll] at hb
    split at hb
    · obtain ⟨m, hm, rfl⟩ := Option.map_eq_some_iff.mp hb
      exact (hi.laid_elsewhere hm hleaf (hpc b)).freeze
    · exact hi.laid_elsewhere hb hleaf (hpc b)
  · refine hi.unallocated_elsewhere ?_ (hpc b) hm
    simp only [Heap.freezeAll] at hb
    split at hb
    · exact Option.map_eq_none_iff.mp hb
    · exact hb
  · simp only [Heap.freezeAll, hi.fresh b hb]
    split <;> rfl

theorem TreeInv.change (hi : TreeInv parameters h threads) (ht : threads t = some pc)
    (hc : HeapChange parameters h pc h' pc') (hok : pc'.LocalOk parameters) :
    TreeInv parameters h' (Function.update threads t (some pc')) := by
  cases hc with
  | quiet hpc =>
      exact ⟨fun b m hb hleaf => hi.laid_elsewhere hb hleaf (hpc b),
        fun b u m hb => hi.unallocated_elsewhere hb (hpc b), hi.fresh, hi.localOk_update hok⟩
  | @leaf a l n hpc hn hkind =>
      subst hpc
      have hl : l.LocalOk parameters := hi.localOk t _ ht
      have hstep := leafStep_change (n := n) hl
      refine hi.set hn hok (fun b hb => ?_) fun hleaf => ?_
      · refine Option.eq_none_iff_forall_ne_some.mpr fun m hm => ?_
        exact hb (inTree_at? hm).1.symm
      · have hlaid := (hi.laid a n hn (hstep.isLeaf.symm.trans hleaf)).change (working_of_leaf ht)
          hstep (leafStep_localOk hl)
        refine hlaid.of_threads (fun u m key r hm _ => ?_) fun u m hm =>
          working_localOk (hi.localOk_update hok) hm
        rw [working_update, Option.bind_some] at hm
        rcases update_eq_some hm with ⟨rfl, hself⟩ | ⟨hu, hold⟩
        · rw [(inTree_at? hself).2, Function.update_self]
        · rwa [Function.update_of_ne hu]
  | freeze hpc => exact hi.freezeAll hok hpc
  | swap hn hinternal _ hpc =>
      refine hi.set hn hok (fun b _ => hpc b) fun hleaf => ?_
      cases hinternal.symm.trans hleaf
  | @allocate _ a₁ a₂ left right n p hleft hright hkind hp hpc =>
      refine hi.allocate hok hpc hp fun hleaf => ?_
      obtain ⟨hl, hr, hm⟩ := hkind hleaf
      have hlaid := hi.laid a₁ left hleft hl
      have hlaid' := hi.laid a₂ right hright hr
      rcases hm with hm | hm
      · exact mergeLeafNodes_laid hlaid hlaid' hm
      · exact mergeLeafNodes_laid hlaid' hlaid hm

theorem TreeInv.immutable (hi : TreeInv parameters h threads) (ht : threads t = some pc)
    (hc : HeapChange parameters h pc h' pc') (hn : h.nodes a = some n)
    (hfrozen : n.status.frozen = true) : ∃ n', h'.nodes a = some n' ∧ Immutable n n' := by
  have hkept : ∀ {b m}, b ≠ a → ∃ n', (h.set b m).nodes a = some n' ∧ Immutable n n' :=
    fun hb => ⟨n, (Function.update_of_ne hb.symm ..).trans hn, Immutable.refl n⟩
  cases hc with
  | quiet => exact ⟨n, hn, Immutable.refl n⟩
  | @leaf b l m hpc hm hkind =>
      subst hpc
      have hl : l.LocalOk parameters := hi.localOk t _ ht
      rcases eq_or_ne b a with rfl | hne
      · cases hn.symm.trans hm
        refine ⟨_, Function.update_self .., ?_⟩
        rcases hkind with hleaf | hfreeze
        · exact (hi.laid b n hn hleaf).immutable (working_of_leaf ht) hfrozen (leafStep_change hl)
        · rw [leafStep_of_isFreeze hfreeze hl hfrozen]
          exact Immutable.refl n
      · exact hkept hne
  | @freeze _ as hpc =>
      refine ⟨n, ?_, Immutable.refl n⟩
      simp only [Heap.freezeAll, hn, Option.map_some, freeze_of_frozen hfrozen, ite_self]
  | @swap _ b m data hm hinternal hopen hpc =>
      rcases eq_or_ne b a with rfl | hne
      · cases hn.symm.trans hm
        cases hopen.symm.trans hfrozen
      · exact hkept hne
  | @allocate _ a₁ a₂ left right m p hleft hright hkind hp hpc =>
      refine ⟨n, ?_, Immutable.refl n⟩
      have hlt : ∀ b, h.fresh ≤ b → a ≠ b := by
        rintro b hb rfl
        rw [hi.fresh a hb] at hn
        cases hn
      exact (Function.update_of_ne (hlt _ (Nat.le_succ _)) ..).trans
        ((Function.update_of_ne (hlt _ (Nat.le_refl _)) ..).trans hn)

theorem TreeInv.update (hi : TreeInv parameters h threads) {o : Option TreePc}
    (ho : ∀ m, o = some m → m.LocalOk parameters ∧ ∀ a l, m.at? a = some l → l.reserved? = none) :
    TreeInv parameters h (Function.update threads t o) := by
  have hok : ∀ u m, Function.update threads t o u = some m → m.LocalOk parameters := by
    intro u m hm
    rcases update_eq_some hm with ⟨-, hm⟩ | ⟨-, hm⟩
    · exact (ho m hm).1
    · exact hi.localOk u m hm
  have hres : ∀ {a u m}, working (Function.update threads t o) a u = some m →
      m.reserved? = none ∨ working threads a u = some m := by
    intro a u m hm
    rw [working_update] at hm
    rcases update_eq_some hm with ⟨-, hm⟩ | ⟨-, hm⟩
    · obtain ⟨pc₁, hpc₁, hm⟩ := Option.bind_eq_some_iff.mp hm
      exact Or.inl ((ho pc₁ hpc₁).2 a m hm)
    · exact Or.inr hm
  refine ⟨fun b m hb hleaf => ?_, fun b u m hb hm => ?_, hi.fresh, hok⟩
  · refine (hi.laid b m hb hleaf).of_threads (fun u m key r hm hr => ?_) fun u m hm =>
      working_localOk hok hm
    refine (hres hm).resolve_left fun hnone => ?_
    rw [hnone] at hr
    cases hr
  · exact (hres hm).elim id fun hm => hi.unallocated b u m hb hm

end Invariant

section Runs

variable {parameters : ParameterSet} {s s' : System Heap TreePc TreeOp ReturnCode} {a : Addr}
  {n : BaseNode}

/-- The nodes as the threads may find them. -/
structure BuiltTree (parameters : ParameterSet) where
  heap : Heap
  fresh : ∀ a, heap.fresh ≤ a → heap.nodes a = none
  laid : ∀ a n, heap.nodes a = some n → n.isLeaf = true → Laid parameters n nobody

theorem treeInv_start (start : BuiltTree parameters) : TreeInv parameters start.heap fun _ => none :=
  ⟨start.laid, fun _ _ _ _ h => (Option.not_mem_none _ h).elim, start.fresh,
    fun _ _ h => (Option.not_mem_none _ h).elim⟩

theorem begin_at? {op : TreeOp} {l : LeafPc} (hl : op.begin.at? a = some l) : l.reserved? = none := by
  cases op with
  | updateChild | checkMerge => cases hl
  | leaf b op =>
      simp only [TreeOp.begin, TreePc.at?] at hl
      split at hl
      · cases hl
        exact begin_reserved? op
      · cases hl

theorem TreeInv.next {x : Action TreeOp} (hi : TreeInv parameters s.shared s.threads)
    (hnext : (treeProgram parameters).next s x = some s') :
    TreeInv parameters s'.shared s'.threads ∧
      (s.shared.nodes a = some n → n.status.frozen = true →
        ∃ n', s'.shared.nodes a = some n' ∧ Immutable n n') := by
  have hkept : s.shared.nodes a = some n → n.status.frozen = true →
      ∃ n', s.shared.nodes a = some n' ∧ Immutable n n' := fun hn _ => ⟨n, hn, Immutable.refl n⟩
  rcases Program.next_cases hnext with
    ⟨t, op, rfl, -, rfl⟩ | ⟨t, pc, rfl, ht, -, rfl⟩ | ⟨t, op, r, rfl, -, rfl⟩
  · refine ⟨hi.update fun m hm => ?_, hkept⟩
    cases hm
    refine ⟨?_, fun b l => begin_at?⟩
    cases op with
    | leaf b op => exact begin_localOk op
    | updateChild | checkMerge => trivial
  · have hok := hi.localOk t pc ht
    exact ⟨hi.change ht (treeStep_change hok) (treeStep_localOk hok),
      fun hn hfrozen => hi.immutable ht (treeStep_change hok) hn hfrozen⟩
  · exact ⟨hi.update fun _ h => (Option.not_mem_none _ h).elim, hkept⟩

theorem TreeInv.reaches (hi : TreeInv parameters s.shared s.threads)
    (h : Reaches (treeProgram parameters).next (fun _ _ => True) s s') :
    TreeInv parameters s'.shared s'.threads :=
  h.invariant (I := fun s => TreeInv parameters s.shared s.threads) hi
    fun _ _ _ hinv _ hnext => (hinv.next (a := 0) (n := BaseNode.new true 0) hnext).1

/-- A node that is frozen keeps its status word, the metadata of its records and the
payloads of the visible ones. -/
theorem frozen_immutable (start : BuiltTree parameters)
    (h : Reaches (treeProgram parameters).next (fun _ _ => True) (System.start start.heap) s)
    (hn : s.shared.nodes a = some n) (hfrozen : n.status.frozen = true)
    (h' : Reaches (treeProgram parameters).next (fun _ _ => True) s s') :
    ∃ n', s'.shared.nodes a = some n' ∧ Immutable n n' := by
  have hstart : TreeInv parameters s.shared s.threads := (treeInv_start start).reaches h
  induction h' with
  | refl => exact ⟨n, hn, Immutable.refl n⟩
  | tail hreach hlast ih =>
      obtain ⟨x, -, hnext⟩ := hlast
      obtain ⟨m, hm, hkept⟩ := ih
      obtain ⟨m', hm', hkept'⟩ := ((hstart.reaches hreach).next hnext).2 hm
        (congrArg StatusWord.frozen hkept.status |>.trans hfrozen)
      exact ⟨m', hm', hkept.trans hkept'⟩

def twoLeaves : BuiltTree .default where
  heap :=
    { nodes := fun a => if a = 1 ∨ a = 2 then some (BaseNode.new true 4096) else if a = 3 then
        BaseNode.copyChildren 72 [some (BaseNode.childRow [] 8 1), some (BaseNode.childRow [5] 16 2)]
        else none
      fresh := 4
      root := 3 }
  fresh := by
    intro a ha
    have h1 : ¬ (a = 1 ∨ a = 2) := by
      rintro (rfl | rfl) <;> exact absurd ha (by decide)
    have h3 : a ≠ 3 := by
      rintro rfl
      exact absurd ha (by decide)
    exact (if_neg h1).trans (if_neg h3)
  laid := by
    intro a n hn hleaf
    dsimp only at hn
    split at hn
    · cases hn
      exact laid_new
    · split at hn
      · rw [copyChildren_isLeaf hn] at hleaf
        cases hleaf
      · cases hn

def mergeStarted : List (Action TreeOp) :=
  .invoke 1 (.leaf 1 (.insert ⟨[1], by decide⟩ 7)) :: List.replicate 5 (.run 1) ++
    .invoke 0 (.checkMerge 1 ⟨some 3, [⟨3, 0⟩]⟩ [1] true) :: List.replicate 9 (.run 0)

def mergeCompleted : List (Action TreeOp) :=
  [.run 1, .run 0, .run 1, .run 0, .ret 0, .ret 1]

theorem frozen_immutable_merge : ∃ s s' n n',
    runActions (treeProgram .default).next (System.start twoLeaves.heap) mergeStarted = some s ∧
      s.shared.nodes 1 = some n ∧ n.status.frozen = true ∧
      runActions (treeProgram .default).next s mergeCompleted = some s' ∧
      s'.log.map (·.result) = [.ok, .nodeFrozen] ∧
      s'.shared.nodes 1 = some n' ∧ Immutable n n' := by
  have hview : (runActions (treeProgram .default).next (System.start twoLeaves.heap)
      mergeStarted).bind (fun s => (s.shared.nodes 1).bind fun n =>
        (runActions (treeProgram .default).next s mergeCompleted).map fun s' =>
          (n.status.frozen, s'.log.map (·.result))) =
      some (true, [.ok, .nodeFrozen]) := by
    decide +kernel
  obtain ⟨s, hs, hview⟩ := Option.bind_eq_some_iff.mp hview
  obtain ⟨n, hn, hview⟩ := Option.bind_eq_some_iff.mp hview
  obtain ⟨s', hs', hview⟩ := Option.map_eq_some_iff.mp hview
  obtain ⟨hfrozen, hlog⟩ := Prod.mk.inj hview
  have hadmits : ∀ s as, Admits (treeProgram .default).next (fun _ _ => True) s as :=
    fun _ _ => admits_of_forall fun _ _ _ => trivial
  obtain ⟨n', hn', hkept⟩ := frozen_immutable twoLeaves (reaches_of_runActions (hadmits _ _) hs) hn
    hfrozen (reaches_of_runActions (hadmits _ _) hs')
  exact ⟨s, s', n, n', hs, hn, hfrozen, hs', hlog, hn', hkept⟩

end Runs

end Tree

section Wide

structure RawKey where
  bytes : List Byte
  short : bytes.length < 2 ^ 16

/-- A step of `Insert` with such a key: the padded length has 16 bits, and a total size that
has more goes into the key length. -/
def insertStepRaw (parameters : ParameterSet) (n : BaseNode) (key : RawKey) (payload : Word) :
    InsertPc → BaseNode × Outcome InsertPc :=
  let totalSize := padKeyLength16 key.bytes.length + 8
  insertStepWith (padKeyLength16 key.bytes.length) totalSize
    (.finalizeForInsert · (key.bytes.length ||| totalSize / 2 ^ 16) (totalSize % 2 ^ 16))
    parameters n key.bytes payload

variable {parameters : ParameterSet} {n : BaseNode} {payload : Word} {pc : InsertPc}

theorem insertStepRaw_eq (key : Key) (h : key.bytes.length < 2 ^ 16) :
    insertStepRaw parameters n ⟨key.bytes, h⟩ payload pc =
      insertStep parameters n key payload pc := by
  have hfits := key.fits
  have hpad : padKeyLength16 key.bytes.length = padKeyLength key.bytes.length := by
    refine Nat.mod_eq_of_lt ?_
    rw [padKeyLength]
    omega
  have htotal : padKeyLength key.bytes.length + 8 < 2 ^ 16 := by
    rw [padKeyLength]
    omega
  simp only [insertStepRaw, insertStep, hpad, Key.totalSize, Nat.div_eq_of_lt htotal,
    Nat.mod_eq_of_lt htotal, Nat.or_zero]

inductive RawOp where
  | insert (key : RawKey) (payload : Word)
  | freeze

inductive RawPc where
  | insert (key : RawKey) (payload : Word) (pc : InsertPc)
  | freeze (pc : FreezePc)
  | done (op : RawOp) (rc : ReturnCode)
  | aborted

def Outcome.rawPc {π : Type} (op : RawOp) (inside : π → RawPc) : Outcome π → RawPc
  | .goto pc => inside pc
  | .ret rc => .done op rc
  | .abort => .aborted

def rawStep (parameters : ParameterSet) (n : BaseNode) : RawPc → BaseNode × RawPc
  | .insert key payload pc =>
      let r := insertStepRaw parameters n key payload pc
      (r.1, r.2.rawPc (.insert key payload) (.insert key payload))
  | .freeze pc =>
      let r := freezeStep n pc
      (r.1, r.2.rawPc .freeze .freeze)
  | .done op rc => (n, .done op rc)
  | .aborted => (n, .aborted)

def RawOp.begin : RawOp → RawPc
  | .insert key payload => .insert key payload .retry
  | .freeze => .freeze .read

def RawPc.finished : RawPc → Option (RawOp × ReturnCode)
  | .done op rc => some (op, rc)
  | _ => none

/-- `Insert` and `Freeze` on one leaf, with keys of any length. -/
def rawProgram (parameters : ParameterSet) : Program BaseNode RawPc RawOp ReturnCode where
  begin := RawOp.begin
  step := fun _ n l => rawStep parameters n l
  done := .done
  finished := RawPc.finished
  finished_iff := by
    intro l op rc
    cases l with
    | done op' rc' => simp [RawPc.finished]
    | insert | freeze | aborted => simp [RawPc.finished]
  rest := fun _ _ _ _ => rfl

/-- A leaf into which the key 1 has been inserted. -/
def oneRecord : BaseNode :=
  (rawProgram .default).afterSteps 0 8 (.insert ⟨[1], by decide⟩ 7) (BaseNode.new true 4096)

theorem oneRecord_metadata : oneRecord.recordMetadata 0 = .record true 4080 1 16 := rfl

def wideKey : RawKey :=
  ⟨List.replicate 65529 0, by rw [List.length_replicate]; decide⟩

def wideReserved : BaseNode :=
  { oneRecord.setMetadata 1 .inserting with status := ⟨false, 2, 24, 0⟩ }

def wideFrozen : BaseNode :=
  { wideReserved with status := ⟨true, 2, 24, 0⟩ }

def wideCopied : BaseNode :=
  { wideFrozen with data := writeWord (writeBytes wideFrozen.data 4072 wideKey.bytes) 4072 0 }

theorem wideStep :
    (rawProgram .default).soloStep 0 (n, .insert wideKey 0 pc) =
      let r := insertStepWith 0 8 (.finalizeForInsert · (65529 ||| 8 / 2 ^ 16) (8 % 2 ^ 16)) .default n
        wideKey.bytes 0 pc
      (r.1, r.2.rawPc (.insert wideKey 0) (.insert wideKey 0)) := by
  have hlen : wideKey.bytes.length = 65529 := List.length_replicate
  have hpad : padKeyLength16 65529 = 0 := by decide
  simp only [Program.soloStep, rawProgram, rawStep, insertStepRaw, hlen, hpad, Nat.zero_add]

theorem wide_leads : Leads ((rawProgram .default).soloStep 0)
    (oneRecord, (rawProgram .default).begin (.insert wideKey 0))
    (wideReserved, .insert wideKey 0 (.copy ⟨1, 4072, 4072, false⟩)) := by
  have hlinear : searchStep oneRecord wideKey.bytes (.linear 0) = .going (.bound 1) := by
    have hlen : wideKey.bytes.length = 65529 := List.length_replicate
    simp [searchStep, oneRecord_metadata, RecordMetadata.isInserting, RecordMetadata.isVisible,
      RecordMetadata.keyLength, hlen]
  have hretry : (rawProgram .default).soloStep 0
      (oneRecord, (rawProgram .default).begin (.insert wideKey 0)) =
        (oneRecord, .insert wideKey 0 (.checking ⟨false, 1, 16, 0⟩ (.sorted 0))) := by
    refine wideStep.trans ?_
    rfl
  have hsorted : (rawProgram .default).soloStep 0
      (oneRecord, .insert wideKey 0 (.checking ⟨false, 1, 16, 0⟩ (.sorted 0))) =
        (oneRecord, .insert wideKey 0 (.checking ⟨false, 1, 16, 0⟩ (.bound 0))) := by
    rw [wideStep]
    rfl
  have hbound : (rawProgram .default).soloStep 0
      (oneRecord, .insert wideKey 0 (.checking ⟨false, 1, 16, 0⟩ (.bound 0))) =
        (oneRecord, .insert wideKey 0 (.checking ⟨false, 1, 16, 0⟩ (.linear 0))) := by
    rw [wideStep]
    rfl
  have hother : (rawProgram .default).soloStep 0
      (oneRecord, .insert wideKey 0 (.checking ⟨false, 1, 16, 0⟩ (.linear 0))) =
        (oneRecord, .insert wideKey 0 (.checking ⟨false, 1, 16, 0⟩ (.bound 1))) := by
    rw [wideStep]
    simp only [insertStepWith, hlinear]
    rfl
  have hmissing : (rawProgram .default).soloStep 0
      (oneRecord, .insert wideKey 0 (.checking ⟨false, 1, 16, 0⟩ (.bound 1))) =
        (oneRecord, .insert wideKey 0 (.readMeta ⟨false, 1, 16, 0⟩ .isUnique)) := by
    rw [wideStep]
    rfl
  have hvacant : (rawProgram .default).soloStep 0
      (oneRecord, .insert wideKey 0 (.readMeta ⟨false, 1, 16, 0⟩ .isUnique)) =
        (oneRecord, .insert wideKey 0 (.reserve ⟨false, 1, 16, 0⟩ .isUnique)) := by
    rw [wideStep]
    rfl
  have hreserve : (rawProgram .default).soloStep 0
      (oneRecord, .insert wideKey 0 (.reserve ⟨false, 1, 16, 0⟩ .isUnique)) =
        (wideReserved, .insert wideKey 0 (.copy ⟨1, 4072, 4072, false⟩)) := by
    rw [wideStep]
    rfl
  refine Leads.head ?_
  rw [hretry]
  refine Leads.head ?_
  rw [hsorted]
  refine Leads.head ?_
  rw [hbound]
  refine Leads.head ?_
  rw [hother]
  refine Leads.head ?_
  rw [hmissing]
  refine Leads.head ?_
  rw [hvacant, ← hreserve]
  exact (Leads.refl _).step

theorem freeze_leads : Leads ((rawProgram .default).soloStep 1)
    (wideReserved, (rawProgram .default).begin .freeze)
    (wideFrozen, .done .freeze .ok) :=
  ⟨2, rfl⟩

theorem copy_leads : Leads ((rawProgram .default).soloStep 0)
    (wideFrozen, .insert wideKey 0 (.copy ⟨1, 4072, 4072, false⟩))
    (wideCopied, .insert wideKey 0 (.readStatus ⟨1, 4072, 4072, false⟩)) := by
  have hcopy : (rawProgram .default).soloStep 0
      (wideFrozen, .insert wideKey 0 (.copy ⟨1, 4072, 4072, false⟩)) =
        (wideCopied, .insert wideKey 0 (.readStatus ⟨1, 4072, 4072, false⟩)) := by
    rw [wideStep]
    rfl
  rw [← hcopy]
  exact (Leads.refl _).step

theorem wideCopied_payload : wideCopied.payload 4080 1 = 0 := by
  refine readWord_eq_zero fun i hlo hhi => ?_
  have hlo : 4088 ≤ i := hlo
  have hhi : i < 4096 := hhi
  have hzero : (List.replicate 65529 (0 : Byte))[i - 4072]? = some 0 := by
    rw [List.getElem?_replicate, if_pos (by omega)]
  have hword : wideCopied.data i = writeBytes wideFrozen.data 4072 wideKey.bytes i := by
    refine writeBytes_of_outside (Or.inr ?_)
    rw [bytesOf_length]
    omega
  rw [hword, writeBytes, if_pos (by omega), wideKey, hzero, Option.getD_some]

/-- With a key whose padded length wraps, a record of a frozen leaf is overwritten. -/
theorem frozen_overwritten : ∃ s s' : System BaseNode RawPc RawOp ReturnCode,
    Reaches (rawProgram .default).next (fun _ _ => True) (System.start oneRecord) s ∧
      s.shared.status.frozen = true ∧
      Reaches (rawProgram .default).next (fun _ _ => True) s s' ∧ ¬ Immutable s.shared s'.shared := by
  have hinsert : ∃ s, Reaches (rawProgram .default).next (fun _ _ => True)
      (System.start oneRecord) s ∧ s.shared = wideReserved ∧
      s.threads = Function.update (fun _ => none) 0
        (some (.insert wideKey 0 (.copy ⟨1, 4072, 4072, false⟩))) ∧ s.log = [] :=
    Program.reaches_call trivial (fun _ => trivial) rfl wide_leads
  obtain ⟨s, hrun, hshared, hthreads, -⟩ := hinsert
  have hfreeze : ∃ s', Reaches (rawProgram .default).next (fun _ _ => True) s s' ∧
      s'.shared = wideFrozen ∧
      s'.threads = Function.update s.threads 1 (some (.done .freeze .ok)) ∧ s'.log = s.log :=
    Program.reaches_call trivial (fun _ => trivial) (hthreads ▸ rfl) (hshared ▸ freeze_leads)
  obtain ⟨s', hrun', hshared', hthreads', -⟩ := hfreeze
  have hpc : s'.threads 0 = some (.insert wideKey 0 (.copy ⟨1, 4072, 4072, false⟩)) := by
    rw [hthreads', hthreads]
    rfl
  have hcopy : ∃ s'', Reaches (rawProgram .default).next (fun _ _ => True) s' s'' ∧
      s''.shared = wideCopied ∧ s''.threads = Function.update s'.threads 0
        (some (.insert wideKey 0 (.readStatus ⟨1, 4072, 4072, false⟩))) ∧ s''.log = s'.log :=
    Program.reaches_run (fun _ => trivial) hpc (hshared' ▸ copy_leads)
  obtain ⟨s'', hrun'', hshared'', -⟩ := hcopy
  refine ⟨s', s'', hrun.trans hrun', by rw [hshared']; rfl, hrun'', fun hkept => ?_⟩
  have hpayload := hkept.payload 0 4080 1 16 (by rw [hshared']; rfl)
  rw [hshared', hshared'', wideCopied_payload] at hpayload
  exact absurd hpayload (by decide +kernel)

end Wide

end HashComp.BzTree
