import HashComp.BzTree.Routing

namespace HashComp.BzTree

open HashComp.ByteMemory

namespace BaseNode

def setPayload (n : BaseNode) (i : Nat) (child : Word) : Option BaseNode :=
  match n.recordMetadata i with
  | .record _ offset keyLength _ =>
      some { n with data := writeWord n.data (offset + padKeyLength keyLength) child }
  | _ => none

def separatorRow (key : List Byte) (child : Word) : Option Row :=
  some (childRow key (padKeyLength key.length + 8) child)

def putBetween (key : List Byte) (left right : Word) :
    BaseNode × Nat × Nat → Option (BaseNode × Nat × Nat)
  | (n, i + 1, offset) =>
      (n.setPayload i left).bind fun n => copyRecord (separatorRow key right) (n, i + 1, offset)
  | (_, 0, _) => none

def putLast (key : List Byte) (left right : Word) :
    BaseNode × Nat × Nat → Option (BaseNode × Nat × Nat)
  | (n, i + 1, offset) =>
      (copyRecord (separatorRow key right) (n, i + 1, offset)).bind fun (n, count, offset) =>
        (n.setPayload i left).map fun n => (n, count, offset)
  | (_, 0, _) => none

def copyInserting (src : BaseNode) (key : List Byte) (left right : Word) :
    List RecordMetadata → BaseNode × Nat × Nat → Option (BaseNode × Nat × Nat)
  | [], r => putLast key left right r
  | m :: metas, r =>
      let cmp := keyCompare (src.rawKey m) (some key)
      if cmp = 0 ∧ key.length = m.keyLength then none
      else if 0 < cmp then
        (putBetween key left right r).bind (copyRecords ((m :: metas).map src.dataRow))
      else (copyRecord (src.dataRow m) r).bind (copyInserting src key left right metas)

def ofRecords (nodeSize : Nat) (src : BaseNode) (metas : List RecordMetadata)
    (key : Option (List Byte)) (left right leftMost : Word) : Option BaseNode :=
  let r := (new false nodeSize, 0, nodeSize)
  ((if leftMost ≠ 0 then copyRecord (some (childRow [] 8 leftMost)) r else some r).bind fun r =>
    match key with
    | some key => src.copyInserting key left right metas r
    | none => copyRecords (metas.map src.dataRow) r).map fun (n, count, _) =>
      { n with sortedCount := count }

def newWith (src : BaseNode) (key : List Byte) (left right : Word) : Option BaseNode :=
  ofRecords (src.size + padKeyLength key.length + 8 + 8) src
    ((List.range src.sortedCount).map src.recordMetadata) (some key) left right 0

/-- `InternalNode::New` for a part of the records, with a new separator or without one. -/
def newPart (src : BaseNode) (beginIdx count : Nat) (key : Option (List Byte))
    (left right leftMost : Word) : Option BaseNode :=
  let metas := (List.range' beginIdx count).map src.recordMetadata
  let dummy := if 0 < beginIdx then (src.recordMetadata 0).totalLength + 8 else 0
  let records := (metas.map fun m => m.totalLength + 8).sum
  match key with
  | some key =>
      if key.length = 0 then none
      else ofRecords (32 + dummy + records + (padKeyLength key.length + 8 + 8)) src metas
        (some key) left right leftMost
  | none => ofRecords (32 + dummy + records) src metas none left right leftMost

def newRoot (key : List Byte) (left right : Word) : Option BaseNode :=
  copyChildren (32 + padKeyLength key.length + 8 + 8 + 2 * 8)
    [some (childRow [] 8 left), separatorRow key right]

inductive Split where
  | one (n : BaseNode)
  | two (left : BaseNode) (separator : List Byte) (right : BaseNode)

/-- `InternalNode::PrepareForSplit`, up to the call for the parent. -/
def prepareForSplit (n : BaseNode) (splitThreshold : Nat) (key : List Byte) (left right : Word) :
    Option Split :=
  if 32 + (n.size + key.length + 8 + 8) < splitThreshold then
    (n.newWith key left right).map .one
  else if n.sortedCount < 2 then none
  else
    let nLeft := n.sortedCount / 2
    let rest := n.sortedCount - nLeft - 1
    match n.recordMetadata nLeft with
    | .record _ offset keyLength _ =>
        let separator := n.rawKey (n.recordMetadata nLeft)
        let child := n.payload offset keyLength
        let cmp := keyCompare (some key) separator
        let cmp := if cmp = 0 then (key.length : Int) - keyLength else cmp
        if cmp = 0 then none
        else if cmp < 0 then
          (n.newPart 0 nLeft (some key) left right 0).bind fun l =>
            (n.newPart (nLeft + 1) rest none 0 0 child).map fun r => .two l (separator.getD []) r
        else
          (n.newPart 0 nLeft none 0 0 0).bind fun l =>
            (n.newPart (nLeft + 1) rest (some key) left right child).map fun r =>
              .two l (separator.getD []) r
    | _ => none

def rawKeyOf (e : Entry) : Option (List Byte) :=
  if e.key = [] then none else some e.key

/-- The place of a new separator among entries: all those before it are below it, and the
one after it is above. -/
structure Cut (key : List Byte) (M₁ M₂ : List Entry) : Prop where
  below : ∀ e ∈ M₁, keyCompare (rawKeyOf e) (some key) < 0
  above : ∀ e ∈ M₂.head?, 0 < keyCompare (rawKeyOf e) (some key)

structure Filled (size : Nat) (entries : List Entry) (r : BaseNode × Nat × Nat) : Prop where
  isLeaf : r.1.isLeaf = false
  size_eq : r.1.size = size
  stacked : r.1.Stacked 0 size entries
  place : r.2 = (entries.length, size - recordSpace entries)

section Records

variable {n : BaseNode} {size i offset : Nat} {entries M X Y : List Entry} {e z : Entry}
  {r : BaseNode × Nat × Nat} {row? : Option Row} {rows : List (Option Row)} {child : Word}

theorem filled_new : Filled size [] (new false size, 0, size) :=
  ⟨rfl, rfl, trivial, rfl⟩

theorem Filled.copyRecords (h : Filled size entries r) (hrows : List.Forall₂ Carries rows M)
    (hroom : nodeSize (entries ++ M) ≤ size) :
    ∃ r', BaseNode.copyRecords rows r = some r' ∧ Filled size (entries ++ M) r' := by
  obtain ⟨n, count, offset⟩ := r
  obtain ⟨hleaf, hsize, hstacked, hplace⟩ := h
  obtain ⟨rfl, rfl⟩ := Prod.mk.injEq .. ▸ hplace
  rw [nodeSize, List.length_append, recordSpace_append] at hroom
  have hfit : 32 + (entries.length + M.length) * 8 + recordSpace M ≤ size - recordSpace entries := by
    omega
  obtain ⟨n', hcopy, hnew, hheader, hext⟩ := copyRecords_spec n hrows hfit
  refine ⟨_, hcopy, hheader.isLeaf.trans hleaf, hheader.size.trans hsize, ?_, ?_⟩
  · refine stacked_append.mpr ⟨hstacked.extends hext (Nat.zero_add _).le
      (Nat.sub_add_cancel (by omega)).le, ?_⟩
    rwa [Nat.zero_add]
  · rw [List.length_append, recordSpace_append, Nat.sub_sub]

theorem Filled.copyRecord (h : Filled size entries r) (hrow : Carries row? e)
    (hroom : nodeSize (entries ++ [e]) ≤ size) :
    ∃ r', BaseNode.copyRecord row? r = some r' ∧ Filled size (entries ++ [e]) r' := by
  obtain ⟨r', hcopy, hr'⟩ := h.copyRecords (.cons hrow .nil) hroom
  refine ⟨r', ?_, hr'⟩
  rw [BaseNode.copyRecords] at hcopy
  cases hr : BaseNode.copyRecord row? r with
  | none =>
      rw [hr] at hcopy
      cases hcopy
  | some r₁ =>
      rw [hr] at hcopy
      exact hcopy

theorem Stacked.below {n' : BaseNode} (h : n.Stacked i offset entries)
    (hm : n'.recordMetadata = n.recordMetadata) (hdata : ∀ a, a < offset → n'.data a = n.data a)
    (hle : recordSpace entries ≤ offset) : n'.Stacked i offset entries := by
  induction entries generalizing i offset with
  | nil => trivial
  | cons e entries ih =>
      rw [recordSpace_cons] at hle
      have hlen := le_padKeyLength e.key.length
      have htotal : e.totalLength = padKeyLength e.key.length + 8 := rfl
      obtain ⟨⟨hmeta, hkey, hpayload⟩, hrest⟩ := h
      refine ⟨⟨by rw [hm, hmeta], ?_, ?_⟩, ih hrest (fun a ha => hdata a (by omega)) (by omega)⟩
      · rw [readBytes_congr fun a _ ha => hdata a (by omega)]
        exact hkey
      · rw [BaseNode.payload, readWord_eq, readBytes_congr fun a _ ha => hdata a (by omega)]
        exact hpayload

theorem Filled.setPayload (h : Filled size (X ++ z :: Y) r)
    (hroom : nodeSize (X ++ z :: Y) ≤ size) (child : Word) :
    ∃ n, r.1.setPayload X.length child = some n ∧
      Filled size (X ++ ⟨z.key, child⟩ :: Y) (n, r.2) := by
  obtain ⟨n, count, offset⟩ := r
  obtain ⟨hleaf, hsize, hstacked, hplace⟩ := h
  obtain ⟨rfl, rfl⟩ := Prod.mk.injEq .. ▸ hplace
  dsimp only at hleaf hsize hstacked
  obtain ⟨hX, ⟨hmeta, hkey, -⟩, hY⟩ := stacked_append.mp hstacked
  rw [nodeSize, recordSpace_append, recordSpace_cons] at hroom
  have hlen := le_padKeyLength z.key.length
  have htotal : z.totalLength = padKeyLength z.key.length + 8 := rfl
  have hsame : (Entry.mk z.key child).totalLength = z.totalLength := rfl
  set o := size - recordSpace X - z.totalLength with ho
  rw [Nat.zero_add] at hmeta hY
  have hout : ∀ a, a < o + padKeyLength z.key.length ∨ o + padKeyLength z.key.length + 8 ≤ a →
      writeWord n.data (o + padKeyLength z.key.length) child a = n.data a := fun a ha =>
    writeBytes_of_outside (by rwa [bytesOf_length])
  refine ⟨{ n with data := writeWord n.data (o + padKeyLength z.key.length) child }, ?_, hleaf, hsize,
    stacked_append.mpr ⟨?_, ?_⟩, ?_⟩
  · rw [BaseNode.setPayload, hmeta]
    rfl
  · exact hX.extends ⟨fun _ _ => rfl, fun a ha => hout a (Or.inr ha)⟩ (Nat.zero_add _).le (by omega)
  · rw [Nat.zero_add]
    refine ⟨⟨hmeta, ?_, ?_⟩, hY.below rfl (fun a ha => hout a (Or.inl (by omega))) (by omega)⟩
    · rw [hsame, ← ho]
      show readBytes _ o z.key.length = z.key
      rw [readBytes_congr fun a _ ha => hout a (Or.inl (by omega))]
      exact hkey
    · have hread : readBytes (writeWord n.data (o + padKeyLength z.key.length) child)
          (o + padKeyLength z.key.length) (bytesOf child).length = bytesOf child :=
        readBytes_writeBytes
      rw [bytesOf_length] at hread
      rw [hsame, ← ho]
      exact (congrArg wordOf hread).trans wordOf_bytesOf
  · simp only [List.length_append, List.length_cons, recordSpace_append, recordSpace_cons, hsame]

end Records

section Constructor

variable {src : BaseNode} {size : Nat} {Z M M₁ M₂ X entries : List Entry} {e z : Entry}
  {r : BaseNode × Nat × Nat} {metas : List RecordMetadata} {key : List Byte} {left right : Word}

structure Reads (src : BaseNode) (m : RecordMetadata) (e : Entry) : Prop where
  carries : Carries (src.dataRow m) e
  rawKey : src.rawKey m = if e.key = [] then none else some e.key
  totalLength : m.totalLength = e.totalLength

theorem Reads.rawKey_eq {m : RecordMetadata} (h : Reads src m e) : src.rawKey m = rawKeyOf e :=
  h.rawKey

theorem Reads.keyLength {m : RecordMetadata} (h : Reads src m e) : m.keyLength = e.key.length := by
  obtain ⟨row, hrow, hlength, -⟩ := h.carries
  cases m with
  | vacant | inserting => cases hrow
  | record =>
      obtain rfl := Option.some.inj hrow
      exact hlength

def lead (leftMost : Word) : List Entry :=
  if leftMost ≠ 0 then [⟨[], leftMost⟩] else []

theorem Filled.finish (h : Filled (nodeSize entries) entries r) :
    BaseNode.Stores { r.1 with sortedCount := r.2.1 } entries := by
  refine ⟨h.isLeaf, h.size_eq, by rw [h.place], ?_⟩
  have hstacked := h.stacked
  rw [← h.size_eq] at hstacked
  exact hstacked.congr rfl rfl

theorem carries_separatorRow : Carries (separatorRow key right) ⟨key, right⟩ :=
  carries_childRow

theorem Filled.putBetween (h : Filled size (X ++ [z]) r)
    (hroom : nodeSize (X ++ [z] ++ [⟨key, right⟩]) ≤ size) :
    ∃ r', BaseNode.putBetween key left right r = some r' ∧
      Filled size (X ++ [⟨z.key, left⟩] ++ [⟨key, right⟩]) r' := by
  obtain ⟨n, hset, hn⟩ := h.setPayload (nodeSize_le_append.trans hroom) left
  have hsame : nodeSize (X ++ [⟨z.key, left⟩] ++ [⟨key, right⟩]) =
      nodeSize (X ++ [z] ++ [⟨key, right⟩]) := nodeSize_congr (by simp)
  obtain ⟨r', hcopy, hr'⟩ := hn.copyRecord carries_separatorRow (hsame.le.trans hroom)
  refine ⟨r', ?_, hr'⟩
  obtain ⟨n₀, count, offset⟩ := r
  obtain ⟨rfl, rfl⟩ := Prod.mk.injEq .. ▸ h.place
  rw [List.length_append, List.length_singleton] at hcopy ⊢
  rw [BaseNode.putBetween, hset, Option.bind_some, hcopy]

theorem Filled.putLast (h : Filled size (X ++ [z]) r)
    (hroom : nodeSize (X ++ [z] ++ [⟨key, right⟩]) ≤ size) :
    ∃ r', BaseNode.putLast key left right r = some r' ∧
      Filled size (X ++ [⟨z.key, left⟩] ++ [⟨key, right⟩]) r' := by
  obtain ⟨⟨n, count, offset⟩, hcopy, hn⟩ := h.copyRecord carries_separatorRow hroom
  rw [List.append_assoc, List.singleton_append] at hn hroom
  obtain ⟨n', hset, hn'⟩ := hn.setPayload hroom left
  refine ⟨(n', count, offset), ?_, by rwa [List.append_assoc]⟩
  obtain ⟨n₀, count₀, offset₀⟩ := r
  obtain ⟨rfl, rfl⟩ := Prod.mk.injEq .. ▸ h.place
  rw [List.length_append, List.length_singleton] at hcopy ⊢
  rw [BaseNode.putLast, hcopy]
  dsimp only [Option.bind_some]
  rw [hset, Option.map_some]

theorem carries_of_reads (h : List.Forall₂ (Reads src) metas M) :
    List.Forall₂ Carries (metas.map src.dataRow) M :=
  List.forall₂_map_left_iff.mpr (h.imp fun _ _ hm => hm.carries)

theorem cut_of_before (hbelow : ∀ e ∈ M₁, e.key = [] ∨ Before e.key key)
    (habove : ∀ e ∈ M₂, e.key ≠ [] ∧ Before key e.key) : Cut key M₁ M₂ := by
  refine ⟨fun e he => ?_, fun e he => ?_⟩
  · rw [rawKeyOf]
    by_cases hnil : e.key = []
    · rw [if_pos hnil]
      exact (by decide : (-1 : Int) < 0)
    · rw [if_neg hnil, keyCompare_neg_iff]
      exact (hbelow e he).resolve_left hnil
  · obtain ⟨hne, hbefore⟩ := habove e (List.mem_of_mem_head? he)
    rw [rawKeyOf, if_neg hne, keyCompare_pos_iff]
    exact hbefore

theorem cut_of_copyInserting {r' : BaseNode × Nat × Nat} (hmetas : List.Forall₂ (Reads src) metas M)
    (hcopy : BaseNode.copyInserting src key left right metas r = some r') :
    ∃ M₁ M₂, M = M₁ ++ M₂ ∧ Cut key M₁ M₂ ∧
      M₁ = M.takeWhile fun e => decide (keyCompare (rawKeyOf e) (some key) ≤ 0) := by
  induction hmetas generalizing r with
  | nil => exact ⟨[], [], rfl, ⟨nofun, nofun⟩, rfl⟩
  | @cons m e metas M hm hmetas ih =>
      rw [BaseNode.copyInserting] at hcopy
      simp only [hm.rawKey_eq] at hcopy
      split at hcopy
      · cases hcopy
      · rename_i hsame
        split at hcopy
        · rename_i habove
          refine ⟨[], e :: M, rfl, ⟨nofun, fun x hx => ?_⟩, ?_⟩
          · obtain rfl := Option.some.inj hx
            exact habove
          · rw [List.takeWhile_cons, if_neg (by simpa using habove)]
        · rename_i hnot
          have hne : keyCompare (rawKeyOf e) (some key) ≠ 0 := by
            intro hzero
            refine hsame ⟨hzero, ?_⟩
            rw [rawKeyOf] at hzero
            split at hzero
            · cases hzero
            · rw [← keyCompare_eq_zero_iff.mp hzero, hm.keyLength]
          obtain ⟨r₁, -, hrest⟩ := Option.bind_eq_some_iff.mp hcopy
          obtain ⟨M₁, M₂, rfl, hcut, htake⟩ := ih hrest
          refine ⟨e :: M₁, M₂, rfl, ⟨fun x hx => ?_, hcut.above⟩, ?_⟩
          · rcases List.mem_cons.mp hx with rfl | hx
            · omega
            · exact hcut.below x hx
          · rw [List.takeWhile_cons, if_pos (by simpa using hnot), ← htake]

/-- The loop of the constructor puts the new separator before the first record that is
above it, or at the end. -/
theorem Filled.copyInserting (h : Filled size Z r)
    (hmetas : List.Forall₂ (Reads src) metas (M₁ ++ M₂)) (hX : Z ++ M₁ = X ++ [z])
    (hcut : Cut key M₁ M₂)
    (hroom : nodeSize (X ++ [z] ++ [⟨key, right⟩] ++ M₂) ≤ size) :
    ∃ r', BaseNode.copyInserting src key left right metas r = some r' ∧
      Filled size (X ++ [⟨z.key, left⟩] ++ [⟨key, right⟩] ++ M₂) r' := by
  induction M₁ generalizing Z r metas with
  | nil =>
      rw [List.append_nil] at hX
      subst hX
      rw [List.nil_append] at hmetas
      have hput := nodeSize_le_append.trans hroom
      cases hmetas with
      | nil =>
          obtain ⟨r', hlast, hr'⟩ := h.putLast hput
          exact ⟨r', hlast, by rwa [List.append_nil]⟩
      | @cons m e metas M₂ hm hmetas =>
          have hcmp : 0 < keyCompare (src.rawKey m) (some key) := by
            rw [hm.rawKey_eq]
            exact hcut.above e rfl
          have hsame : nodeSize (X ++ [⟨z.key, left⟩] ++ [⟨key, right⟩] ++ e :: M₂) =
              nodeSize (X ++ [z] ++ [⟨key, right⟩] ++ e :: M₂) := nodeSize_congr (by simp)
          obtain ⟨r₁, hbetween, hr₁⟩ := h.putBetween hput
          obtain ⟨r', hcopies, hr'⟩ := hr₁.copyRecords (carries_of_reads (.cons hm hmetas))
            (hsame.le.trans hroom)
          refine ⟨r', ?_, hr'⟩
          rw [BaseNode.copyInserting, if_neg (by omega), if_pos hcmp, hbetween, Option.bind_some,
            hcopies]
  | cons e M₁ ih =>
      rw [List.cons_append] at hmetas
      cases hmetas with
      | @cons m _ metas _ hm hmetas =>
          have hcmp : keyCompare (src.rawKey m) (some key) < 0 := by
            rw [hm.rawKey_eq]
            exact hcut.below e List.mem_cons_self
          have hZ : Z ++ [e] ++ M₁ = X ++ [z] := by
            rw [List.append_assoc, List.singleton_append, hX]
          have hprefix : nodeSize (Z ++ [e]) ≤ nodeSize (X ++ [z]) := by
            rw [← hZ]
            exact nodeSize_le_append
          have hput : nodeSize (Z ++ [e]) ≤ size :=
            hprefix.trans (nodeSize_le_append.trans (nodeSize_le_append.trans hroom))
          obtain ⟨r₁, hcopy, hr₁⟩ := h.copyRecord hm.carries hput
          obtain ⟨r', hrest, hr'⟩ := ih hr₁ hmetas hZ
            ⟨fun e' he' => hcut.below e' (List.mem_cons_of_mem _ he'), hcut.above⟩
          refine ⟨r', ?_, hr'⟩
          rw [BaseNode.copyInserting, if_neg (by omega), if_neg (by omega), hcopy,
            Option.bind_some, hrest]

theorem filled_lead {leftMost : Word} (hroom : nodeSize (lead leftMost) ≤ size) :
    ∃ r, (if leftMost ≠ 0 then
        BaseNode.copyRecord (some (childRow [] 8 leftMost)) (new false size, 0, size)
      else some (new false size, 0, size)) = some r ∧ Filled size (lead leftMost) r := by
  by_cases hzero : leftMost ≠ 0
  · rw [lead, if_pos hzero] at hroom ⊢
    rw [if_pos hzero]
    have hrow : Carries (some (childRow [] 8 leftMost)) ⟨[], leftMost⟩ := carries_childRow
    exact filled_new.copyRecord hrow hroom
  · rw [lead, if_neg hzero, if_neg hzero]
    exact ⟨_, rfl, filled_new⟩

theorem ofRecords_some {leftMost : Word} (hmetas : List.Forall₂ (Reads src) metas (M₁ ++ M₂))
    (hX : lead leftMost ++ M₁ = X ++ [z]) (hcut : Cut key M₁ M₂)
    (hsize : size = nodeSize (X ++ [z] ++ [⟨key, right⟩] ++ M₂)) :
    ∃ n, ofRecords size src metas (some key) left right leftMost = some n ∧
      n.Stores (X ++ [⟨z.key, left⟩] ++ [⟨key, right⟩] ++ M₂) := by
  have hlead : nodeSize (lead leftMost) ≤ nodeSize (X ++ [z]) := by
    rw [← hX]
    exact nodeSize_le_append
  have hroom := hsize.ge
  obtain ⟨r, hr, hfilled⟩ :=
    filled_lead (hlead.trans (nodeSize_le_append.trans (nodeSize_le_append.trans hroom)))
  obtain ⟨r', hcopies, hr'⟩ := hfilled.copyInserting hmetas hX hcut hroom
  have hsame : nodeSize (X ++ [⟨z.key, left⟩] ++ [⟨key, right⟩] ++ M₂) =
      nodeSize (X ++ [z] ++ [⟨key, right⟩] ++ M₂) := nodeSize_congr (by simp)
  rw [hsize, ← hsame] at hr'
  refine ⟨_, ?_, hr'.finish⟩
  rw [ofRecords, hr]
  dsimp only [Option.bind_some]
  rw [hcopies]
  rfl

theorem ofRecords_none {leftMost : Word} (hmetas : List.Forall₂ (Reads src) metas M)
    (hsize : size = nodeSize (lead leftMost ++ M)) :
    ∃ n, ofRecords size src metas none left right leftMost = some n ∧
      n.Stores (lead leftMost ++ M) := by
  have hroom := hsize.ge
  obtain ⟨r, hr, hfilled⟩ := filled_lead (nodeSize_le_append.trans hroom)
  obtain ⟨r', hcopies, hr'⟩ := hfilled.copyRecords (carries_of_reads hmetas) hroom
  rw [hsize] at hr'
  refine ⟨_, ?_, hr'.finish⟩
  rw [ofRecords, hr]
  dsimp only [Option.bind_some]
  rw [hcopies]
  rfl

theorem Stores.reads {E₀ E₁ : List Entry} (h : src.Stores (E₀ ++ M ++ E₁)) :
    List.Forall₂ (Reads src) ((List.range' E₀.length M.length).map src.recordMetadata) M := by
  induction M generalizing E₀ with
  | nil => exact .nil
  | cons e M ih =>
      have he : (E₀ ++ e :: M ++ E₁)[E₀.length]? = some e := by simp
      obtain ⟨offset, ho⟩ := h.holdsAt he
      rw [List.length_cons, List.range'_succ, List.map_cons]
      refine .cons ⟨ho.carries, ho.rawKey, ho.totalLength⟩ ?_
      have hrest := @ih (E₀ ++ [e]) (by rwa [List.append_assoc E₀, List.singleton_append])
      rwa [List.length_append, List.length_singleton] at hrest

theorem sum_totalLength (h : List.Forall₂ (Reads src) metas M) :
    (metas.map fun m => m.totalLength + 8).sum = recordSpace M + 8 * M.length := by
  induction h with
  | nil => rfl
  | cons hm _ ih =>
      rw [List.map_cons, List.sum_cons, ih, hm.totalLength, recordSpace_cons, List.length_cons]
      omega

end Constructor

end BaseNode

end HashComp.BzTree
