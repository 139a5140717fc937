import HashComp.Library.LinkedLists
import HashComp.HashIndex.Model

namespace HashComp.HashIndex

open LinkedLists

def Heap.next (heap : Heap) (a : NodeAddress) : Option NodeAddress := (heap.nodes a).next

section Walk

variable {nodes : NodeAddress → BucketNode} {key : IdxKey} {fuel : Nat}
  {cur : Option NodeAddress} {a : NodeAddress} {l : List NodeAddress}
  (prev : Option NodeAddress)

theorem findNode_of_ne (h : Seg (fun a => (nodes a).next) cur l none) (hfuel : l.length < fuel)
    (hne : ∀ a ∈ l, (nodes a).key ≠ key) :
    findNode nodes key fuel cur prev = some (none, l.getLast?.or prev) := by
  induction l generalizing fuel cur prev with
  | nil =>
      rcases fuel with _ | fuel
      · exact absurd hfuel (Nat.not_lt_zero _)
      · cases h
        rfl
  | cons a l ih =>
      rcases fuel with _ | fuel
      · exact absurd hfuel (Nat.not_lt_zero _)
      · obtain ⟨rfl, hl⟩ := h
        rw [findNode, if_neg (hne a List.mem_cons_self),
          ih (some a) hl (Nat.lt_of_succ_lt_succ hfuel) fun b hb => hne b (List.mem_cons_of_mem a hb)]
        rw [List.getLast?_cons]
        cases l.getLast? with
        | none => rfl
        | some last => rfl

theorem findNode_of_mem (h : Seg (fun a => (nodes a).next) cur l none) (hfuel : l.length < fuel)
    (hdistinct : (l.map fun a => (nodes a).key).Nodup) (ha : a ∈ l) (hkey : (nodes a).key = key) :
    ∃ prev_node, findNode nodes key fuel cur prev = some (some a, prev_node) := by
  induction l generalizing fuel cur prev with
  | nil => cases ha
  | cons b l ih =>
      rcases fuel with _ | fuel
      · exact absurd hfuel (Nat.not_lt_zero _)
      · obtain ⟨rfl, hl⟩ := h
        rw [List.map_cons, List.nodup_cons] at hdistinct
        rw [findNode]
        rcases List.mem_cons.mp ha with rfl | ha
        · rw [if_pos hkey]
          exact ⟨prev, rfl⟩
        · have hne : (nodes b).key ≠ key := by
            intro heq
            refine hdistinct.1 ?_
            rw [heq, ← hkey]
            exact List.mem_map_of_mem ha
          rw [if_neg hne]
          exact ih (some b) hl (Nat.lt_of_succ_lt_succ hfuel) hdistinct.2 ha

end Walk

section Items

variable {calls : List Call} {call : Call} {key : IdxKey} {part_id : Nat} {item : ItemAddress}

theorem inserted_snoc_self :
    inserted (calls ++ [call]) call.key call.part_id =
      call.item :: inserted calls call.key call.part_id := by
  simp [inserted]

theorem inserted_snoc_of_ne (h : ¬(call.key = key ∧ call.part_id = part_id)) :
    inserted (calls ++ [call]) key part_id = inserted calls key part_id := by
  simp [inserted, h]

theorem inserted_eq_nil (h : ∀ call ∈ calls, ¬(call.key = key ∧ call.part_id = part_id)) :
    inserted calls key part_id = [] := by
  have hfilter : calls.filter (fun call => call.key = key ∧ call.part_id = part_id) = [] := by
    rw [List.filter_eq_nil_iff]
    intro call hcall
    rw [decide_eq_true_iff]
    exact h call hcall
  rw [inserted, hfilter]
  rfl

theorem mem_items_of_inserted (h : item ∈ inserted calls key part_id) :
    item ∈ calls.map Call.item := by
  rw [inserted, List.mem_reverse, List.mem_map] at h
  obtain ⟨call, hcall, rfl⟩ := h
  exact List.mem_map_of_mem (List.mem_of_mem_filter hcall)

end Items

structure BucketOk (heap : Heap) (cnt : Nat) (calls : List Call) (part_id bkt_idx : Nat)
    (first_node : Option NodeAddress) (l : List NodeAddress) : Prop where
  linked : Seg heap.next first_node l none
  distinct : (l.map fun a => (heap.nodes a).key).Nodup
  hashed : ∀ a ∈ l, (heap.nodes a).key.toNat % cnt = bkt_idx
  allocated : ∀ a ∈ l, a < heap.allocated
  items : ∀ a ∈ l, Seg heap.item_next (heap.nodes a).items
    (inserted calls (heap.nodes a).key part_id) none
  present : ∀ call ∈ calls, call.part_id = part_id → call.key.toNat % cnt = bkt_idx →
    ∃ a ∈ l, (heap.nodes a).key = call.key

/-- A new item leaves the nodes outside of its bucket and the other items alone. -/
structure Spares (heap heap' : Heap) (item : ItemAddress) (l l' : List NodeAddress) : Prop where
  nodes : ∀ a ∉ l, a < heap.allocated → heap'.nodes a = heap.nodes a
  items : ∀ i ≠ item, heap'.item_next i = heap.item_next i
  allocated : heap.allocated ≤ heap'.allocated
  fresh : ∀ a ∈ l', a ∈ l ∨ heap.allocated ≤ a

section Bucket

variable {heap heap' : Heap} {cnt part_id bkt_idx : Nat} {calls : List Call} {call : Call}
  {first_node : Option NodeAddress} {header : BucketHeader} {a : NodeAddress}
  {l l' m : List NodeAddress}

theorem BucketOk.nodup (h : BucketOk heap cnt calls part_id bkt_idx first_node l) : l.Nodup :=
  h.distinct.of_map

theorem BucketOk.length_lt (h : BucketOk heap cnt calls part_id bkt_idx first_node l) :
    l.length < heap.allocated + 1 := by
  have hsub : l ⊆ List.range heap.allocated :=
    fun a ha => List.mem_range.mpr (h.allocated a ha)
  have hle := (List.subperm_of_subset h.nodup hsub).length_le
  rw [List.length_range] at hle
  exact Nat.lt_succ_of_le hle

theorem BucketOk.init (h : first_node = none) :
    BucketOk heap cnt [] part_id bkt_idx first_node [] where
  linked := h
  distinct := List.nodup_nil
  hashed := nofun
  allocated := nofun
  items := nofun
  present := nofun

/-- The items of a key are those of before if the new item is of another one. -/
theorem items_frame (hitems : ∀ i ≠ call.item, heap'.item_next i = heap.item_next i)
    (hfresh : call.item ∉ calls.map Call.item) {key : IdxKey} {start : Option ItemAddress}
    (hother : ¬(call.key = key ∧ call.part_id = part_id))
    (h : Seg heap.item_next start (inserted calls key part_id) none) :
    Seg heap'.item_next start (inserted (calls ++ [call]) key part_id) none := by
  rw [inserted_snoc_of_ne hother]
  refine h.congr fun i hi => hitems i ?_
  rintro rfl
  exact hfresh (mem_items_of_inserted hi)

theorem BucketOk.frame (h : BucketOk heap cnt calls part_id bkt_idx first_node m)
    (hspares : Spares heap heap' call.item l l') (hapart : ∀ a ∈ m, a ∉ l)
    (hfresh : call.item ∉ calls.map Call.item)
    (hother : ¬(call.part_id = part_id ∧ call.key.toNat % cnt = bkt_idx)) :
    BucketOk heap' cnt (calls ++ [call]) part_id bkt_idx first_node m := by
  have hnodes : ∀ a ∈ m, heap'.nodes a = heap.nodes a :=
    fun a ha => hspares.nodes a (hapart a ha) (h.allocated a ha)
  refine ⟨h.linked.congr fun a ha => ?_, ?_, fun a ha => ?_, fun a ha => ?_, fun a ha => ?_,
    fun c hc hpart hhash => ?_⟩
  · rw [Heap.next, hnodes a ha, Heap.next]
  · rw [List.map_congr_left fun a ha => by rw [hnodes a ha]]
    exact h.distinct
  · rw [hnodes a ha]
    exact h.hashed a ha
  · exact lt_of_lt_of_le (h.allocated a ha) hspares.allocated
  · rw [hnodes a ha]
    refine items_frame hspares.items hfresh ?_ (h.items a ha)
    rintro ⟨hkey, hpart⟩
    refine hother ⟨hpart, ?_⟩
    rw [hkey]
    exact h.hashed a ha
  · rcases List.mem_append.mp hc with hc | hc
    · obtain ⟨a, ha, hkey⟩ := h.present c hc hpart hhash
      exact ⟨a, ha, by rw [hnodes a ha, hkey]⟩
    · rw [List.mem_singleton.mp hc] at hpart hhash
      exact absurd ⟨hpart, hhash⟩ hother

theorem BucketOk.pushItem
    (h : BucketOk heap cnt calls call.part_id bkt_idx first_node l) (ha : a ∈ l)
    (hkey : (heap.nodes a).key = call.key) (hfresh : call.item ∉ calls.map Call.item) :
    BucketOk (heap.pushItem a call.item) cnt (calls ++ [call]) call.part_id bkt_idx first_node l ∧
      Spares heap (heap.pushItem a call.item) call.item l l := by
  have hself : (heap.pushItem a call.item).nodes a =
      { heap.nodes a with items := some call.item } := Function.update_self ..
  have hne : ∀ b, b ≠ a → (heap.pushItem a call.item).nodes b = heap.nodes b :=
    fun b hb => Function.update_of_ne hb ..
  have hkeys : ∀ b, ((heap.pushItem a call.item).nodes b).key = (heap.nodes b).key := by
    intro b
    rcases eq_or_ne b a with rfl | hb
    · rw [hself]
    · rw [hne b hb]
  have hitems : ∀ i ≠ call.item, (heap.pushItem a call.item).item_next i = heap.item_next i :=
    fun i hi => Function.update_of_ne hi ..
  constructor
  · refine ⟨h.linked.congr fun b _ => ?_, ?_, fun b hb => ?_, h.allocated, fun b hb => ?_,
      fun c hc hpart hhash => ?_⟩
    · rcases eq_or_ne b a with rfl | hb
      · rw [Heap.next, hself, Heap.next]
      · rw [Heap.next, hne b hb, Heap.next]
    · rw [List.map_congr_left fun b _ => hkeys b]
      exact h.distinct
    · rw [hkeys]
      exact h.hashed b hb
    · rw [hkeys]
      rcases eq_or_ne b a with rfl | hba
      · rw [hself, hkey, inserted_snoc_self]
        have hold := h.items b hb
        rw [hkey] at hold
        exact hold.push fun hi => hfresh (mem_items_of_inserted hi)
      · rw [hne b hba]
        refine items_frame hitems hfresh ?_ (h.items b hb)
        rintro ⟨heq, -⟩
        -- two nodes of one key would be one node
        exact hba (List.inj_on_of_nodup_map h.distinct hb ha (heq.symm.trans hkey.symm))
    · rcases List.mem_append.mp hc with hc | hc
      · obtain ⟨b, hb, hbkey⟩ := h.present c hc hpart hhash
        exact ⟨b, hb, by rw [hkeys, hbkey]⟩
      · rw [List.mem_singleton.mp hc]
        exact ⟨a, ha, by rw [hkeys, hkey]⟩
  · refine ⟨fun b hb _ => hne b ?_, hitems, le_refl _, fun b hb => .inl hb⟩
    rintro rfl
    exact hb ha

structure Appended (heap heap' : Heap) (header header' : BucketHeader) (key : IdxKey)
    (item : ItemAddress) (l : List NodeAddress) : Prop where
  linked : Seg heap'.next header'.first_node (l ++ [heap.allocated]) none
  locked : header'.locked = header.locked
  key_new : (heap'.nodes heap.allocated).key = key
  items_new : (heap'.nodes heap.allocated).items = some item
  old : ∀ a ∉ l, a < heap.allocated → heap'.nodes a = heap.nodes a
  key : ∀ a ∈ l, (heap'.nodes a).key = (heap.nodes a).key
  items : ∀ a ∈ l, (heap'.nodes a).items = (heap.nodes a).items
  item_next : heap'.item_next = heap.item_next
  allocated : heap'.allocated = heap.allocated + 1

theorem appendNode_nil {key : IdxKey} {item : ItemAddress} (h : header.first_node = none) :
    Appended heap (heap.appendNode header key item none).1 header
      (heap.appendNode header key item none).2 key item [] := by
  have hself : (heap.appendNode header key item none).1.nodes heap.allocated =
      { BucketNode.init key with items := some item, next := header.first_node } :=
    Function.update_self ..
  refine ⟨⟨rfl, ?_⟩, rfl, by rw [hself]; rfl, by rw [hself], fun a _ hlt => ?_, nofun, nofun,
    rfl, rfl⟩
  · rw [Heap.next, hself]
    exact h
  · exact Function.update_of_ne (Nat.ne_of_lt hlt) ..

theorem appendNode_concat {key : IdxKey} {item : ItemAddress} {last : NodeAddress}
    (h : Seg heap.next header.first_node (l ++ [last]) none) (hnodup : (l ++ [last]).Nodup)
    (halloc : ∀ a ∈ l ++ [last], a < heap.allocated) :
    Appended heap (heap.appendNode header key item (some last)).1 header
      (heap.appendNode header key item (some last)).2 key item (l ++ [last]) := by
  have hlast : last < heap.allocated :=
    halloc last (List.mem_append_right l (List.mem_singleton_self last))
  have hend : (heap.nodes last).next = none := by
    obtain ⟨mid, -, -, hend⟩ := seg_append.mp h
    exact hend
  have hnew : (heap.appendNode header key item (some last)).1.nodes heap.allocated =
      { BucketNode.init key with items := some item, next := (heap.nodes last).next } :=
    (Function.update_of_ne (Nat.ne_of_gt hlast) ..).trans (Function.update_self ..)
  have hself : (heap.appendNode header key item (some last)).1.nodes last =
      { heap.nodes last with next := some heap.allocated } := by
    refine (Function.update_self ..).trans ?_
    rw [Function.update_of_ne (Nat.ne_of_lt hlast)]
  have hne : ∀ a < heap.allocated, a ≠ last →
      (heap.appendNode header key item (some last)).1.nodes a = heap.nodes a :=
    fun a ha hal => (Function.update_of_ne hal ..).trans (Function.update_of_ne (Nat.ne_of_lt ha) ..)
  have hfront : ∀ a ∈ l, a ≠ last := by
    rintro a ha rfl
    exact (List.nodup_append.mp hnodup).2.2 a ha a (List.mem_singleton_self a) rfl
  have hkept : ∀ a ∈ l ++ [last],
      ((heap.appendNode header key item (some last)).1.nodes a).key = (heap.nodes a).key ∧
        ((heap.appendNode header key item (some last)).1.nodes a).items =
          (heap.nodes a).items := by
    intro a ha
    rcases eq_or_ne a last with rfl | hal
    · rw [hself]
      exact ⟨rfl, rfl⟩
    · rw [hne a (halloc a ha) hal]
      exact ⟨rfl, rfl⟩
  refine ⟨h.snoc ?_ ?_ fun a ha => ?_, rfl, by rw [hnew]; rfl, by rw [hnew], fun a ha hlt => ?_,
    fun a ha => (hkept a ha).1, fun a ha => (hkept a ha).2, rfl, rfl⟩
  · rw [Heap.next, hself]
  · rw [Heap.next, hnew]
    exact hend
  · rw [Heap.next, hne a (halloc a (List.mem_append_left _ ha)) (hfront a ha), Heap.next]
  · refine hne a hlt ?_
    rintro rfl
    exact ha (List.mem_append_right l (List.mem_singleton_self a))

theorem BucketOk.appendNode
    (h : BucketOk heap cnt calls call.part_id bkt_idx header.first_node l)
    (hhash : call.key.toNat % cnt = bkt_idx) (hne : ∀ a ∈ l, (heap.nodes a).key ≠ call.key)
    (hfresh : call.item ∉ calls.map Call.item) (hnull : heap.item_next call.item = none) :
    ∃ heap' header', heap.appendNode header call.key call.item l.getLast? = (heap', header') ∧
      header'.locked = header.locked ∧
      BucketOk heap' cnt (calls ++ [call]) call.part_id bkt_idx header'.first_node
        (l ++ [heap.allocated]) ∧
      Spares heap heap' call.item l (l ++ [heap.allocated]) := by
  obtain ⟨heap', header', heq, hadd⟩ : ∃ heap' header',
      heap.appendNode header call.key call.item l.getLast? = (heap', header') ∧
        Appended heap heap' header header' call.key call.item l := by
    rcases l.eq_nil_or_concat' with rfl | ⟨front, last, rfl⟩
    · exact ⟨_, _, rfl, appendNode_nil h.linked⟩
    · rw [List.getLast?_concat]
      exact ⟨_, _, rfl, appendNode_concat h.linked h.nodup h.allocated⟩
  have hnone : inserted calls call.key call.part_id = [] := by
    refine inserted_eq_nil fun c hc => ?_
    rintro ⟨hkey, hpart⟩
    obtain ⟨a, ha, hakey⟩ := h.present c hc hpart (by rw [hkey, hhash])
    exact hne a ha (hakey.trans hkey)
  refine ⟨heap', header', heq, hadd.locked, ⟨hadd.linked, ?_, fun a ha => ?_, fun a ha => ?_,
    fun a ha => ?_, fun c hc hpart hbkt => ?_⟩, hadd.old, fun i _ => by rw [hadd.item_next],
    hadd.allocated ▸ Nat.le_succ _, fun a ha => ?_⟩
  · rw [List.map_append, List.map_congr_left fun a ha => hadd.key a ha, List.map_singleton,
      hadd.key_new, List.nodup_append]
    refine ⟨h.distinct, List.nodup_singleton _, ?_⟩
    rintro key hkey _ hcall rfl
    rw [List.mem_singleton] at hcall
    obtain ⟨a, ha, rfl⟩ := List.mem_map.mp hkey
    exact hne a ha hcall
  · rcases List.mem_append.mp ha with ha | ha
    · rw [hadd.key a ha]
      exact h.hashed a ha
    · rw [List.mem_singleton.mp ha, hadd.key_new]
      exact hhash
  · rw [hadd.allocated]
    rcases List.mem_append.mp ha with ha | ha
    · exact Nat.lt_succ_of_lt (h.allocated a ha)
    · rw [List.mem_singleton.mp ha]
      exact Nat.lt_succ_self _
  · rw [hadd.item_next]
    rcases List.mem_append.mp ha with ha | ha
    · rw [hadd.key a ha, hadd.items a ha]
      exact items_frame (fun _ _ => rfl) hfresh (fun heq => hne a ha heq.1.symm) (h.items a ha)
    · rw [List.mem_singleton.mp ha, hadd.key_new, hadd.items_new, inserted_snoc_self]
      exact ⟨rfl, by rw [hnull, hnone]; rfl⟩
  · rcases List.mem_append.mp hc with hc | hc
    · obtain ⟨a, ha, hkey⟩ := h.present c hc hpart hbkt
      exact ⟨a, List.mem_append_left _ ha, by rw [hadd.key a ha, hkey]⟩
    · rw [List.mem_singleton.mp hc]
      exact ⟨_, List.mem_append_right _ (List.mem_singleton_self _), hadd.key_new⟩
  · rcases List.mem_append.mp ha with ha | ha
    · exact .inl ha
    · rw [List.mem_singleton.mp ha]
      exact .inr (le_refl _)

theorem BucketOk.insert_item
    (h : BucketOk heap cnt calls call.part_id bkt_idx header.first_node l)
    (hhash : call.key.toNat % cnt = bkt_idx) (hfresh : call.item ∉ calls.map Call.item)
    (hnull : heap.item_next call.item = none) :
    ∃ heap' header' l', header.insert_item heap call.key call.item = some (heap', header') ∧
      header'.locked = header.locked ∧
      BucketOk heap' cnt (calls ++ [call]) call.part_id bkt_idx header'.first_node l' ∧
      Spares heap heap' call.item l l' := by
  by_cases hkey : ∃ a ∈ l, (heap.nodes a).key = call.key
  · obtain ⟨a, ha, hkey⟩ := hkey
    obtain ⟨prev_node, hfind⟩ :=
      findNode_of_mem none h.linked h.length_lt h.distinct ha hkey
    rw [BucketHeader.insert_item, hfind]
    obtain ⟨hok, hspares⟩ := h.pushItem ha hkey hfresh
    exact ⟨_, header, l, rfl, rfl, hok, hspares⟩
  · have hne : ∀ a ∈ l, (heap.nodes a).key ≠ call.key := fun a ha heq => hkey ⟨a, ha, heq⟩
    have hfind := findNode_of_ne none h.linked h.length_lt hne
    rw [Option.or_none] at hfind
    rw [BucketHeader.insert_item, hfind]
    obtain ⟨heap', header', heq, hok⟩ := h.appendNode hhash hne hfresh hnull
    exact ⟨heap', header', _, congrArg some heq, hok⟩

theorem BucketOk.read_item
    (h : BucketOk heap cnt calls call.part_id bkt_idx header.first_node l) (hc : call ∈ calls)
    (hhash : call.key.toNat % cnt = bkt_idx) :
    ∃ item, header.read_item heap call.key = some item ∧
      Seg heap.item_next item (inserted calls call.key call.part_id) none := by
  obtain ⟨a, ha, hkey⟩ := h.present call hc rfl hhash
  obtain ⟨prev_node, hfind⟩ :=
    findNode_of_mem none h.linked h.length_lt h.distinct ha hkey
  refine ⟨(heap.nodes a).items, ?_, ?_⟩
  · rw [BucketHeader.read_item, hfind, Option.bind_some, Option.bind_some, if_pos hkey]
  · rw [← hkey]
    exact h.items a ha

end Bucket

/-- All buckets, with the nodes of each. -/
structure Sound (table : IndexHash) (part_cnt : Nat) (calls : List Call)
    (chain : Nat → Nat → List NodeAddress) : Prop where
  bucket : ∀ p < part_cnt, ∀ b < table.bucket_cnt_per_part,
    BucketOk table.heap table.bucket_cnt_per_part calls p b (table.buckets p b).first_node
      (chain p b)
  unlocked : ∀ p < part_cnt, ∀ b < table.bucket_cnt_per_part, (table.buckets p b).locked = false
  apart : ∀ p < part_cnt, ∀ b < table.bucket_cnt_per_part, ∀ p' < part_cnt,
    ∀ b' < table.bucket_cnt_per_part, ∀ a ∈ chain p b, a ∈ chain p' b' → p = p' ∧ b = b'

section Table

variable {table : IndexHash} {part_cnt part_id bkt_idx p b : Nat} {calls done : List Call}
  {call : Call} {chain : Nat → Nat → List NodeAddress} {header : BucketHeader}

theorem setBucket_self : table.setBucket part_id bkt_idx header part_id bkt_idx = header := by
  rw [IndexHash.setBucket, Function.update_self, Function.update_self]

theorem setBucket_of_ne (h : ¬(p = part_id ∧ b = bkt_idx)) :
    table.setBucket part_id bkt_idx header p b = table.buckets p b := by
  rw [IndexHash.setBucket]
  rcases eq_or_ne p part_id with rfl | hp
  · rw [Function.update_self, Function.update_of_ne fun hb => h ⟨rfl, hb⟩]
  · rw [Function.update_of_ne hp]

theorem hash_lt (hcnt : 0 < table.bucket_cnt_per_part) (key : IdxKey) :
    table.hash key < table.bucket_cnt_per_part := Nat.mod_lt _ hcnt

theorem Sound.index_insert (h : Sound table part_cnt calls chain)
    (hcnt : 0 < table.bucket_cnt_per_part) (hpart : call.part_id < part_cnt)
    (hfresh : call.item ∉ calls.map Call.item)
    (hnull : table.heap.item_next call.item = none) :
    ∃ table' chain', table.index_insert call.key call.item call.part_id = some table' ∧
      table'.bucket_cnt_per_part = table.bucket_cnt_per_part ∧
      (∀ i ≠ call.item, table'.heap.item_next i = table.heap.item_next i) ∧
      Sound table' part_cnt (calls ++ [call]) chain' := by
  have hlt := hash_lt hcnt call.key
  let latched : BucketHeader :=
    { table.buckets call.part_id (table.hash call.key) with locked := true }
  have hold : BucketOk table.heap table.bucket_cnt_per_part calls call.part_id
      (table.hash call.key) latched.first_node (chain call.part_id (table.hash call.key)) :=
    h.bucket _ hpart _ hlt
  obtain ⟨heap', header', l', heq, -, hok, hspares⟩ := hold.insert_item rfl hfresh hnull
  obtain ⟨chain', hself, hother⟩ : ∃ chain' : Nat → Nat → List NodeAddress,
      chain' call.part_id (table.hash call.key) = l' ∧
        ∀ q c, ¬(q = call.part_id ∧ c = table.hash call.key) → chain' q c = chain q c :=
    ⟨fun q c => if q = call.part_id ∧ c = table.hash call.key then l' else chain q c,
      if_pos ⟨rfl, rfl⟩, fun q c hne => if_neg hne⟩
  obtain ⟨table', hinsert, hheap, hsize, hat, hothers⟩ : ∃ table' : IndexHash,
      table.index_insert call.key call.item call.part_id = some table' ∧
        table'.heap = heap' ∧ table'.bucket_cnt_per_part = table.bucket_cnt_per_part ∧
        table'.buckets call.part_id (table.hash call.key) = { header' with locked := false } ∧
        ∀ q c, ¬(q = call.part_id ∧ c = table.hash call.key) →
          table'.buckets q c = table.buckets q c := by
    let header : BucketHeader := { header' with locked := false }
    refine ⟨⟨heap', table.setBucket call.part_id (table.hash call.key) header,
      table.bucket_cnt_per_part⟩, ?_, rfl, rfl, setBucket_self, fun q c => setBucket_of_ne⟩
    rw [IndexHash.index_insert, if_pos hlt,
      if_neg (Bool.eq_false_iff.mp (h.unlocked _ hpart _ hlt)), heq]
    rfl
  refine ⟨table', chain', hinsert, hsize, hheap ▸ hspares.items, ?_⟩
  rw [← hheap] at hok hspares
  constructor
  · rw [hsize]
    intro q hq c hc
    by_cases hsame : q = call.part_id ∧ c = table.hash call.key
    · obtain ⟨rfl, rfl⟩ := hsame
      rw [hself, hat]
      exact hok
    · rw [hother q c hsame, hothers q c hsame]
      refine (h.bucket q hq c hc).frame hspares (fun a ha hmem => ?_) hfresh ?_
      · exact hsame (h.apart q hq c hc _ hpart _ hlt a ha hmem)
      · rintro ⟨hp, hb⟩
        exact hsame ⟨hp.symm, hb.symm⟩
  · rw [hsize]
    intro q hq c hc
    by_cases hsame : q = call.part_id ∧ c = table.hash call.key
    · rw [hsame.1, hsame.2, hat]
    · rw [hothers q c hsame]
      exact h.unlocked q hq c hc
  · rw [hsize]
    intro q hq c hc q' hq' c' hc' a ha ha'
    -- a node of the bucket that was not there is in no other one
    have hnew : ∀ q < part_cnt, ∀ c < table.bucket_cnt_per_part, a ∈ l' →
        ¬(q = call.part_id ∧ c = table.hash call.key) → a ∉ chain q c := by
      intro q hq c hc hmem hne hchain
      rcases hspares.fresh a hmem with hold | hfresh
      · exact hne (h.apart q hq c hc _ hpart _ hlt a hchain hold)
      · exact absurd ((h.bucket q hq c hc).allocated a hchain) (Nat.not_lt.mpr hfresh)
    by_cases hsame : q = call.part_id ∧ c = table.hash call.key
    · by_cases hsame' : q' = call.part_id ∧ c' = table.hash call.key
      · exact ⟨hsame.1.trans hsame'.1.symm, hsame.2.trans hsame'.2.symm⟩
      · rw [hother q' c' hsame'] at ha'
        rw [hsame.1, hsame.2, hself] at ha
        exact absurd ha' (hnew q' hq' c' hc' ha hsame')
    · rw [hother q c hsame] at ha
      by_cases hsame' : q' = call.part_id ∧ c' = table.hash call.key
      · rw [hsame'.1, hsame'.2, hself] at ha'
        exact absurd ha (hnew q hq c hc ha' hsame)
      · rw [hother q' c' hsame'] at ha'
        exact h.apart q hq c hc q' hq' c' hc' a ha ha'

theorem Sound.insertAll (h : Sound table part_cnt done chain)
    (hcnt : 0 < table.bucket_cnt_per_part) (hparts : ∀ call ∈ calls, call.part_id < part_cnt)
    (hdistinct : ((done ++ calls).map Call.item).Nodup)
    (hnull : ∀ call ∈ calls, table.heap.item_next call.item = none) :
    ∃ table' chain', table.insertAll calls = some table' ∧
      table'.bucket_cnt_per_part = table.bucket_cnt_per_part ∧
      Sound table' part_cnt (done ++ calls) chain' := by
  induction calls generalizing table done chain with
  | nil =>
      refine ⟨table, chain, rfl, rfl, ?_⟩
      rwa [List.append_nil]
  | cons call calls ih =>
      have hmap : (done ++ call :: calls).map Call.item =
          done.map Call.item ++ call.item :: calls.map Call.item := by
        rw [List.map_append, List.map_cons]
      have hapart := hdistinct
      rw [hmap, List.nodup_append] at hapart
      obtain ⟨-, htail, hcross⟩ := hapart
      rw [List.nodup_cons] at htail
      have hfresh : call.item ∉ done.map Call.item :=
        fun hmem => hcross _ hmem _ List.mem_cons_self rfl
      obtain ⟨table', chain', heq, hsize, hitems, hsound⟩ := h.index_insert hcnt
        (hparts call List.mem_cons_self) hfresh (hnull call List.mem_cons_self)
      have hnull' : ∀ later ∈ calls, table'.heap.item_next later.item = none := by
        intro later hlater
        rw [hitems later.item]
        · exact hnull later (List.mem_cons_of_mem call hlater)
        · intro hsame
          refine htail.1 ?_
          rw [← hsame]
          exact List.mem_map_of_mem hlater
      rw [List.append_cons] at hdistinct
      obtain ⟨table'', chain'', hall, hsize', hsound'⟩ := ih hsound (hsize ▸ hcnt)
        (fun later hlater => hparts later (List.mem_cons_of_mem call hlater)) hdistinct hnull'
      refine ⟨table'', chain'', ?_, hsize'.trans hsize, ?_⟩
      · rw [IndexHash.insertAll, heq]
        exact hall
      · rwa [List.append_assoc] at hsound'

end Table

section Init

variable {heap : Heap} {memory row : Nat → BucketHeader} {buckets : Nat → Nat → BucketHeader}
  {cnt fuel parts i : Nat} {n : UInt32}

theorem initBuckets_init (hpast : ∀ m < n.toNat, memory m = .init)
    (h : initBuckets cnt fuel n memory = some row) : ∀ m < cnt, row m = .init := by
  induction fuel generalizing n memory with
  | zero => cases h
  | succ fuel ih =>
      rw [initBuckets] at h
      split at h
      case isFalse hle =>
        cases h
        exact fun m hm => hpast m (lt_of_lt_of_le hm (Nat.not_lt.mp hle))
      case isTrue hlt =>
        refine ih (fun m hm => ?_) h
        rcases eq_or_ne m n.toNat with rfl | hne
        · exact Function.update_self ..
        · rw [Function.update_of_ne hne]
          have hle : (n + 1).toNat ≤ n.toNat + 1 := by
            rw [UInt32.toNat_add]
            exact Nat.mod_le _ _
          exact hpast m (by omega)

/-- It does end if the number of buckets is below `2 ^ 32`, and it does not end otherwise. -/
theorem initBuckets_ends_iff :
    (∃ fuel, (initBuckets cnt fuel n memory).isSome) ↔ cnt < 2 ^ 32 := by
  constructor
  · rintro ⟨fuel, h⟩
    by_contra hge
    induction fuel generalizing n memory with
    | zero => cases h
    | succ fuel ih =>
        have hlt : n.toNat < cnt := lt_of_lt_of_le n.toNat_lt (Nat.not_lt.mp hge)
        rw [initBuckets, if_pos hlt] at h
        exact ih h
  · intro hcnt
    obtain ⟨left, hleft⟩ : ∃ left, cnt ≤ n.toNat + left := ⟨cnt, Nat.le_add_left _ _⟩
    refine ⟨left + 1, ?_⟩
    induction left generalizing n memory with
    | zero =>
        rw [Nat.add_zero] at hleft
        rw [initBuckets, if_neg (Nat.not_lt.mpr hleft)]
        rfl
    | succ left ih =>
        rw [initBuckets]
        split
        case isFalse => rfl
        case isTrue hlt =>
          refine ih ?_
          rw [UInt32.toNat_add, UInt32.toNat_one, Nat.mod_eq_of_lt (by omega)]
          omega

theorem initParts_init {memory : Nat → Nat → BucketHeader}
    (hpast : ∀ p < i, ∀ b < cnt, memory p b = .init)
    (h : initParts cnt fuel parts i memory = some buckets) :
    ∀ p < i + parts, ∀ b < cnt, buckets p b = .init := by
  induction parts generalizing i memory with
  | zero =>
      cases h
      exact hpast
  | succ parts ih =>
      rw [initParts] at h
      obtain ⟨row, hrow, h⟩ := Option.bind_eq_some_iff.mp h
      rw [← Nat.succ_add_eq_add_succ]
      refine ih (fun p hp b hb => ?_) h
      rcases Nat.lt_succ_iff_lt_or_eq.mp hp with hlt | rfl
      · rw [Function.update_of_ne (Nat.ne_of_lt hlt)]
        exact hpast p hlt b hb
      · rw [Function.update_self]
        exact initBuckets_init (n := 0) (fun m hm => absurd hm (Nat.not_lt_zero m)) hrow b hb

theorem sound_init {memory : Nat → Nat → BucketHeader} {bucket_cnt part_cnt : Nat}
    {table : IndexHash}
    (h : IndexHash.init heap memory fuel bucket_cnt part_cnt = some table) :
    table.heap = heap ∧ table.bucket_cnt_per_part = bucket_cnt / part_cnt ∧
      Sound table part_cnt [] fun _ _ => [] := by
  obtain ⟨buckets, hbuckets, rfl⟩ := Option.map_eq_some_iff.mp h
  have hinit := initParts_init (fun p hp => absurd hp (Nat.not_lt_zero p)) hbuckets
  rw [Nat.zero_add] at hinit
  refine ⟨rfl, rfl, fun p hp b hb => .init ?_, fun p hp b hb => ?_, nofun⟩
  · exact congrArg BucketHeader.first_node (hinit p hp b hb)
  · exact congrArg BucketHeader.locked (hinit p hp b hb)

end Init

/-- The nodes of a bucket have keys of the bucket, no key twice. -/
def BucketHeader.KeysOnce (heap : Heap) (header : BucketHeader)
    (hash : IdxKey → Nat) (bkt_idx : Nat) : Prop :=
  ∃ l, Seg heap.next header.first_node l none ∧ (l.map fun a => (heap.nodes a).key).Nodup ∧
    ∀ a ∈ l, hash (heap.nodes a).key = bkt_idx

/-- After any calls with new items every key reads the items inserted for it in its
partition, the newest first. -/
theorem index_read_newest_first {heap : Heap} {memory : Nat → Nat → BucketHeader}
    {fuel bucket_cnt part_cnt : Nat} {table : IndexHash} {calls : List Call}
    (hparts : 0 < part_cnt) (hcnt : part_cnt ≤ bucket_cnt)
    (hinit : IndexHash.init heap memory fuel bucket_cnt part_cnt = some table)
    (hpart : ∀ call ∈ calls, call.part_id < part_cnt)
    (hdistinct : (calls.map Call.item).Nodup)
    (hnull : ∀ call ∈ calls, heap.item_next call.item = none) :
    ∃ table', table.insertAll calls = some table' ∧
      (∀ call ∈ calls, ∃ item, table'.index_read call.key call.part_id = some item ∧
        Seg table'.heap.item_next item (inserted calls call.key call.part_id) none) ∧
      ∀ p < part_cnt, ∀ b < table'.bucket_cnt_per_part,
        (table'.buckets p b).KeysOnce table'.heap table'.hash b := by
  obtain ⟨hheap, hsize, hsound⟩ := sound_init hinit
  have hpos : 0 < table.bucket_cnt_per_part := by
    rw [hsize]
    exact Nat.div_pos hcnt hparts
  obtain ⟨table', chain', hall, hsize', hsound'⟩ := hsound.insertAll hpos hpart
    (by rwa [List.nil_append]) (by rwa [hheap])
  rw [List.nil_append] at hsound'
  refine ⟨table', hall, fun call hcall => ?_, fun p hp b hb => ?_⟩
  · have hlt := hash_lt (hsize' ▸ hpos) call.key
    rw [IndexHash.index_read, if_pos hlt]
    exact (hsound'.bucket _ (hpart call hcall) _ hlt).read_item hcall rfl
  · have hok := hsound'.bucket p hp b hb
    exact ⟨chain' p b, hok.linked, hok.distinct, hok.hashed⟩

/-- Three keys of one bucket, two of them equal, and the same key in another partition. -/
theorem index_read_colliding_keys :
    let heap : Heap := ⟨fun _ => .init 0, 0, fun _ => none⟩
    let calls : List Call := [⟨1, 10, 0⟩, ⟨3, 11, 0⟩, ⟨1, 12, 1⟩, ⟨1, 13, 0⟩]
    ∃ table table', IndexHash.init heap (fun _ _ => ⟨some 7, 5, true⟩) 3 4 2 = some table ∧
      table.insertAll calls = some table' ∧
      (∀ call ∈ calls, ∃ item, table'.index_read call.key call.part_id = some item ∧
        Seg table'.heap.item_next item (inserted calls call.key call.part_id) none) ∧
      ∀ p < 2, ∀ b < table'.bucket_cnt_per_part,
        (table'.buckets p b).KeysOnce table'.heap table'.hash b := by
  intro heap calls
  obtain ⟨table', h⟩ := @index_read_newest_first heap (fun _ _ => ⟨some 7, 5, true⟩) 3 4 2
    _ calls (by decide) (by decide) rfl (by decide) (by decide) (by decide)
  exact ⟨_, table', rfl, h⟩

end HashComp.HashIndex
