import HashComp.Hashes.Murmur

/-!
The variants of the hash functions.  Those that read at aligned addresses only, or byte by byte,
give the hash of the plain ones, wherever the key lies; `CMurmurHash2A` gives the one of
`MurmurHash2A`, however a key is cut into the pieces that are added one after the other.
-/

namespace HashComp.Hashes

open HashComp.ByteMemory

section Words

variable {data xs ys : List Byte} {h t : BitVec 32} {align : Nat}

structure Joins (op : BitVec 32 → BitVec 32 → BitVec 32) : Prop where
  assoc : ∀ x y z, op (op x y) z = op x (op y z)
  comm : ∀ x y, op x y = op y x
  zero : ∀ x, op x 0#32 = x
  shift : ∀ x y, op x y <<< 8 = op (x <<< 8) (y <<< 8)
  cons : ∀ (b : Byte) xs, littleEndian 32 (b :: xs) = op (b.setWidth 32) (littleEndian 32 xs <<< 8)

theorem joins_or : Joins (· ||| ·) :=
  ⟨BitVec.or_assoc, BitVec.or_comm, fun _ => BitVec.or_zero, fun x y => BitVec.shiftLeft_or_distrib x y 8,
    fun _ _ => rfl⟩

theorem joins_xor : Joins (· ^^^ ·) :=
  ⟨BitVec.xor_assoc, BitVec.xor_comm, fun _ => BitVec.xor_zero, fun x y => BitVec.shiftLeft_xor_distrib x y 8,
    fun _ _ => littleEndian_cons_xor⟩

theorem joins_add : Joins (· + ·) :=
  ⟨BitVec.add_assoc, BitVec.add_comm, BitVec.add_zero, fun _ _ => BitVec.shiftLeft_add_distrib,
    fun _ _ => littleEndian_cons_add⟩

/-- A `switch` over the last bytes puts the word to the hash that they spell. -/
theorem Joins.fallThrough {op : BitVec 32 → BitVec 32 → BitVec 32} (hop : Joins op)
    (hlen : data.length < 4) : fallThrough op h data = op h (littleEndian 32 data) := by
  have hnil : littleEndian 32 [] <<< 8 = 0#32 := rfl
  have hsixteen : ∀ x : BitVec 32, x <<< 8 <<< 8 = x <<< 16 := fun x => (BitVec.shiftLeft_add x 8 8).symm
  match data, hlen with
  | [], _ => exact (hop.zero h).symm
  | [b₀], _ => rw [Hashes.fallThrough, hop.cons, hnil, hop.zero]
  | [b₀, b₁], _ =>
      rw [Hashes.fallThrough, hop.cons, hop.cons, hnil, hop.zero, hop.assoc, hop.comm (b₀.setWidth 32)]
  | [b₀, b₁, b₂], _ =>
      rw [Hashes.fallThrough, hop.cons, hop.cons, hop.cons, hnil, hop.zero, hop.shift, hsixteen, hop.assoc,
        hop.assoc, ← hop.assoc (b₂.setWidth 32 <<< 16), hop.comm (b₂.setWidth 32 <<< 16),
        hop.comm _ (b₀.setWidth 32)]

theorem loadBytes_eq : loadBytes = loadWord := by
  funext b₀ b₁ b₂ b₃
  simp only [loadBytes, loadWord, littleEndian, BitVec.zero_shiftLeft, BitVec.or_zero,
    BitVec.shiftLeft_or_distrib, ← BitVec.shiftLeft_add, BitVec.or_assoc, Nat.reduceAdd]

end Words

section Loops

variable {mix : BitVec 32 → BitVec 32 → BitVec 32} {data xs ys pending : List Byte} {h t d : BitVec 32}
  {align : Nat}

theorem wordLoop_four (hlen : xs.length = 4) :
    wordLoop loadWord mix h (xs ++ ys) = wordLoop loadWord mix (mix h (littleEndian 32 xs)) ys := by
  match xs, hlen with
  | [_, _, _, _], _ => rfl

theorem wordLoop_short (hlen : data.length < 4) : wordLoop loadWord mix h data = (h, data) := by
  match data, hlen with
  | [], _ | [_], _ | [_, _], _ | [_, _, _], _ => rfl

structure Pending (align : Nat) (t : BitVec 32) (pending : List Byte) : Prop where
  length : pending.length + align = 4
  word : t >>> (8 * align) = littleEndian 32 pending

theorem Pending.join (hp : Pending align t pending) :
    t >>> (8 * align) ||| littleEndian 32 data <<< (8 * (4 - align)) =
      littleEndian 32 (pending ++ data.take align) := by
  have hlen := hp.length
  have htake : (pending ++ data).take 4 = pending ++ data.take align := by
    rw [List.take_append, List.take_of_length_le (by omega), show 4 - pending.length = align by omega]
  rw [hp.word, ← htake, littleEndian_take (by omega), littleEndian_append,
    show 4 - align = pending.length by omega]

theorem preload_pending (halign : align < 4) (hlen : 4 ≤ data.length) (hpos : align ≠ 0) :
    Pending align (preload align data) (data.take (4 - align)) := by
  have hlength : (data.take (4 - align)).length = 4 - align := by
    rw [List.length_take]
    omega
  have hzeros : littleEndian 32 (List.replicate align 0) = 0#32 := by
    refine BitVec.eq_of_getLsbD_eq fun i hi => ?_
    rw [getLsbD_littleEndian, List.getElem?_replicate]
    split <;> simp
  have hshift : littleEndian 32 (data.take (4 - align)) <<< (8 * align) =
      littleEndian 32 (List.replicate align 0 ++ data.take (4 - align)) := by
    rw [littleEndian_append, hzeros, BitVec.zero_or, List.length_replicate]
  refine ⟨by omega, ?_⟩
  have hfits : 8 * ((List.replicate align (0 : Byte)).length + (data.take (4 - align)).length) ≤ 32 := by
    rw [List.length_replicate]
    omega
  have hword := littleEndian_shiftRight _ _ hfits
  rw [List.length_replicate] at hword
  rw [preload, joins_or.fallThrough (by omega), BitVec.zero_or, hshift, hword]

theorem alignedLoop_spec (mix : BitVec 32 → BitVec 32 → BitVec 32) (h : BitVec 32) (data : List Byte)
    (hp : Pending align t pending) :
    ∃ h' t' pending' rest, alignedLoop mix align h t data = (h', t', rest) ∧ Pending align t' pending' ∧
      rest.length < 4 ∧
      wordLoop loadWord mix h (pending ++ data) = wordLoop loadWord mix h' (pending' ++ rest) := by
  induction h, t, data using alignedLoop.induct mix align generalizing pending with
  | case1 h t b₀ b₁ b₂ b₃ data d =>
      rename_i ih
      have hlen := hp.length
      have htake : ([b₀, b₁, b₂, b₃].take align).length = align := by
        rw [List.length_take, List.length_cons, List.length_cons, List.length_cons, List.length_singleton]
        omega
      have hdrop : ([b₀, b₁, b₂, b₃].drop align).length + align = 4 := by
        rw [List.length_drop, List.length_cons, List.length_cons, List.length_cons, List.length_singleton]
        omega
      have hnext : Pending align d ([b₀, b₁, b₂, b₃].drop align) := by
        have hfits : 8 * (([b₀, b₁, b₂, b₃].take align).length +
            ([b₀, b₁, b₂, b₃].drop align).length) ≤ 32 := by omega
        have hword := littleEndian_shiftRight _ _ hfits
        rw [htake, List.take_append_drop] at hword
        exact ⟨hdrop, hword⟩
      obtain ⟨h', t', pending', rest, hloop, hpending, hrest, hsame⟩ := ih hnext
      refine ⟨h', t', pending', rest, hloop, hpending, hrest, ?_⟩
      have hword : t >>> (8 * align) ||| d <<< (8 * (4 - align)) =
          littleEndian 32 (pending ++ [b₀, b₁, b₂, b₃].take align) := hp.join
      have hsplit : pending ++ b₀ :: b₁ :: b₂ :: b₃ :: data =
          pending ++ [b₀, b₁, b₂, b₃].take align ++ ([b₀, b₁, b₂, b₃].drop align ++ data) := by
        rw [List.append_assoc, ← List.append_assoc _ _ data, List.take_append_drop]
        rfl
      rw [← hsame, hword, hsplit, wordLoop_four]
      rw [List.length_append]
      omega
  | case2 h t data hshort =>
      refine ⟨h, t, pending, data, ?_, hp, ?_, rfl⟩
      · match data, hshort with
        | [], _ | [_], _ | [_, _], _ | [_, _, _], _ => rfl
        | b₀ :: b₁ :: b₂ :: b₃ :: data, hshort => exact absurd rfl (hshort b₀ b₁ b₂ b₃ data)
      · match data, hshort with
        | [], _ | [_], _ | [_, _], _ | [_, _, _], _ => simp
        | b₀ :: b₁ :: b₂ :: b₃ :: data, hshort => exact absurd rfl (hshort b₀ b₁ b₂ b₃ data)

theorem Pending.few (mix : BitVec 32 → BitVec 32 → BitVec 32) (h : BitVec 32)
    (hp : Pending align t pending) (halign : align < 4) (hlt : data.length < align) :
    t >>> (8 * align) ||| fallThrough (· ||| ·) 0#32 data <<< (8 * (4 - align)) =
        littleEndian 32 (pending ++ data) ∧
      wordLoop loadWord mix h (pending ++ data) = (h, pending ++ data) ∧
      (pending ++ data).length < 4 ∧ pending ++ data ≠ [] := by
  have hlength := hp.length
  have hall : (pending ++ data).length < 4 := by
    rw [List.length_append]
    omega
  refine ⟨?_, wordLoop_short hall, hall, fun hnil => ?_⟩
  · rw [joins_or.fallThrough (by omega), BitVec.zero_or, hp.join, List.take_of_length_le hlt.le]
  · have hzero := congrArg List.length hnil
    rw [List.length_append, List.length_nil] at hzero
    omega

theorem Pending.enough (hp : Pending align t pending) (hshort : data.length < 4)
    (hle : align ≤ data.length) :
    wordLoop loadWord mix h (pending ++ data) =
      (mix h (t >>> (8 * align) ||| fallThrough (· ||| ·) 0#32 (data.take align) <<< (8 * (4 - align))),
        data.drop align) := by
  have hlength := hp.length
  have htake : (data.take align).length < 4 := by
    rw [List.length_take]
    omega
  have hword : (pending ++ data.take align).length = 4 := by
    rw [List.length_append, List.length_take]
    omega
  have hdrop : (data.drop align).length < 4 := by
    rw [List.length_drop]
    omega
  have hsplit : pending ++ data = pending ++ data.take align ++ data.drop align := by
    rw [List.append_assoc, List.take_append_drop]
  rw [joins_or.fallThrough htake, BitVec.zero_or, hp.join, List.take_take, Nat.min_self, hsplit,
    wordLoop_four hword, wordLoop_short hdrop]

end Loops

section Functions

variable {data pending : List Byte} {h t : BitVec 32} {align : Nat}

theorem tail1_eq (hlen : data.length < 4) (hne : data ≠ []) :
    tail1 h data = mix1 h (littleEndian 32 data) := by
  rw [tail1, if_neg hne, joins_add.fallThrough hlen, mix1]

theorem tail2_eq (hlen : data.length < 4) (hne : data ≠ []) :
    tail2 h data = (h ^^^ littleEndian 32 data) * multiplier2 := by
  rw [tail2, if_neg hne, joins_xor.fallThrough hlen]

/-- Reading the key at aligned addresses only makes no difference to the hash. -/
theorem murmurHash1Aligned_eq (address : Nat) (key : List Byte) (seed : BitVec 32) :
    murmurHash1Aligned address key seed = murmurHash1 key seed := by
  rw [murmurHash1Aligned, murmurHash1]
  generalize seed ^^^ BitVec.ofNat 32 key.length * multiplier1 = h
  have halign : address % 4 < 4 := Nat.mod_lt _ (by decide)
  generalize address % 4 = align at halign
  dsimp only
  split
  · rename_i hcond
    obtain ⟨hpos, hlen⟩ := hcond
    obtain ⟨h', t', pending, data, hloop, hpending, hshort, hsame⟩ :=
      alignedLoop_spec mix1 h (key.drop (4 - align)) (preload_pending halign hlen hpos)
    rw [List.take_append_drop] at hsame
    rw [hloop, hsame]
    dsimp only
    rcases Nat.lt_or_ge data.length align with hlt | hge
    · obtain ⟨hword, hplain, hall, hne⟩ := hpending.few mix1 h' halign hlt
      rw [if_pos hlt, List.take_length, List.drop_length, hword, hplain]
      dsimp only
      rw [tail1_eq hall hne, tail1, if_pos rfl]
    · rw [if_neg (Nat.not_lt.mpr hge), hpending.enough hshort hge]
  · rfl

theorem murmurHashAligned2_eq (address : Nat) (key : List Byte) (seed : BitVec 32) :
    murmurHashAligned2 address key seed = murmurHash2 key seed := by
  rw [murmurHashAligned2, murmurHash2]
  generalize seed ^^^ BitVec.ofNat 32 key.length = h
  have halign : address % 4 < 4 := Nat.mod_lt _ (by decide)
  generalize address % 4 = align at halign
  dsimp only
  split
  · rename_i hcond
    obtain ⟨hpos, hlen⟩ := hcond
    obtain ⟨h', t', pending, data, hloop, hpending, hshort, hsame⟩ :=
      alignedLoop_spec mix2 h (key.drop (4 - align)) (preload_pending halign hlen hpos)
    rw [List.take_append_drop] at hsame
    rw [hloop, hsame]
    dsimp only
    rcases Nat.lt_or_ge data.length align with hlt | hge
    · obtain ⟨hword, hplain, hall, hne⟩ := hpending.few mix2 h' halign hlt
      rw [if_neg (Nat.not_le.mpr hlt), hword, hplain]
      dsimp only
      rw [tail2_eq hall hne]
    · rw [if_pos hge, hpending.enough hshort hge]
  · rfl

/-- Neither does putting the words together from bytes. -/
theorem murmurHash2_variants (address : Nat) (key : List Byte) (seed : BitVec 32) :
    murmurHashAligned2 address key seed = murmurHash2 key seed ∧
      murmurHashNeutral2 key seed = murmurHash2 key seed := by
  refine ⟨murmurHashAligned2_eq address key seed, ?_⟩
  rw [murmurHashNeutral2, murmurHash2, loadBytes_eq]

end Functions

section Appending

variable {load : Byte → Byte → Byte → Byte → BitVec 32} {mix : BitVec 32 → BitVec 32 → BitVec 32}
  {xs ys data : List Byte} {h : BitVec 32}

theorem wordLoop_rest_length : (wordLoop load mix h data).2.length < 4 := by
  induction h, data using wordLoop.induct load mix with
  | case1 h b₀ b₁ b₂ b₃ data ih => exact ih
  | case2 h data hshort =>
      match data, hshort with
      | [], _ | [_], _ | [_, _], _ | [_, _, _], _ => simp [wordLoop]
      | b₀ :: b₁ :: b₂ :: b₃ :: data, hshort => exact absurd rfl (hshort b₀ b₁ b₂ b₃ data)

theorem wordLoop_append : wordLoop load mix h (xs ++ ys) =
    wordLoop load mix (wordLoop load mix h xs).1 ((wordLoop load mix h xs).2 ++ ys) := by
  induction h, xs using wordLoop.induct load mix with
  | case1 h b₀ b₁ b₂ b₃ data ih => exact ih
  | case2 h data hshort =>
      match data, hshort with
      | [], _ | [_], _ | [_, _], _ | [_, _, _], _ => rfl
      | b₀ :: b₁ :: b₂ :: b₃ :: data, hshort => exact absurd rfl (hshort b₀ b₁ b₂ b₃ data)

end Appending

namespace CMurmurHash2A

variable {seed h : BitVec 32} {bytes data chunk rest : List Byte} {s : CMurmurHash2A} {b : Byte}

structure Absorbed (seed : BitVec 32) (bytes rest : List Byte) (s : CMurmurHash2A) : Prop where
  loop : wordLoop loadWord mix2 seed bytes = (s.hash, rest)
  tail : s.tail = littleEndian 32 rest
  count : s.count = rest.length

theorem Absorbed.short (ha : Absorbed seed bytes rest s) : rest.length < 4 := by
  have hlen : (wordLoop loadWord mix2 seed bytes).2.length < 4 := wordLoop_rest_length
  rwa [ha.loop] at hlen

theorem start_absorbed : Absorbed seed [] [] (start seed) :=
  ⟨rfl, rfl, rfl⟩

/-- The bytes that the loop over words has left over may be absorbed after it. -/
theorem Absorbed.trans (hloop : wordLoop loadWord mix2 seed bytes = (h, data))
    (ha : Absorbed h data rest s) : Absorbed seed bytes rest s := by
  have hlen : (wordLoop loadWord mix2 seed bytes).2.length < 4 := wordLoop_rest_length
  rw [hloop] at hlen
  have hsame := ha.loop
  rw [wordLoop_short hlen] at hsame
  exact ⟨hloop.trans hsame, ha.tail, ha.count⟩

theorem mixByte_absorbed (ha : Absorbed seed bytes rest s) :
    (∃ rest', Absorbed seed (bytes ++ [b]) rest' (s.mixByte b)) ∧ (s.mixByte b).size = s.size := by
  have hshort := ha.short
  have hbyte : littleEndian 32 [b] = b.setWidth 32 := by
    rw [littleEndian, littleEndian, BitVec.zero_shiftLeft, BitVec.or_zero]
  have htail : s.tail ||| b.setWidth 32 <<< (s.count * 8) = littleEndian 32 (rest ++ [b]) := by
    rw [ha.tail, ha.count, littleEndian_append, hbyte, Nat.mul_comm]
  have hloop : wordLoop loadWord mix2 seed (bytes ++ [b]) = wordLoop loadWord mix2 s.hash (rest ++ [b]) := by
    rw [wordLoop_append, ha.loop]
  have hlength : (rest ++ [b]).length = rest.length + 1 := List.length_append
  simp only [mixByte, htail]
  split
  · rename_i hfour
    refine ⟨⟨[], ?_, rfl, rfl⟩, rfl⟩
    rw [ha.count] at hfour
    have hword : wordLoop loadWord mix2 s.hash ((rest ++ [b]) ++ []) =
        (mix2 s.hash (littleEndian 32 (rest ++ [b])), []) := wordLoop_four (hlength.trans hfour)
    rw [List.append_nil] at hword
    exact hloop.trans hword
  · rename_i hfew
    refine ⟨⟨rest ++ [b], ?_, rfl, ?_⟩, rfl⟩
    · rw [ha.count] at hfew
      exact hloop.trans (wordLoop_short (by omega))
    · rw [hlength, ha.count]

theorem mixTail_absorbed (ha : Absorbed seed bytes rest s) (data : List Byte) :
    ∃ s' consumed left rest', mixTail s data = (s', left) ∧ data = consumed ++ left ∧
      Absorbed seed (bytes ++ consumed) rest' s' ∧ s'.size = s.size ∧
      (left = [] ∨ rest' = [] ∧ 4 ≤ left.length) := by
  induction data generalizing s bytes rest with
  | nil => exact ⟨s, [], [], rest, rfl, rfl, by rwa [List.append_nil], rfl, Or.inl rfl⟩
  | cons b data ih =>
      rw [mixTail]
      split
      · obtain ⟨⟨rest', ha'⟩, hsize⟩ := mixByte_absorbed (b := b) ha
        obtain ⟨s', consumed, left, rest'', htail, rfl, hall, hsize', hleft⟩ := ih ha'
        refine ⟨s', b :: consumed, left, rest'', htail, rfl, ?_, hsize'.trans hsize, hleft⟩
        rwa [List.append_assoc] at hall
      · rename_i hcond
        push Not at hcond
        refine ⟨s, [], b :: data, rest, rfl, rfl, by rwa [List.append_nil], rfl, Or.inr ⟨?_, hcond.1⟩⟩
        exact List.eq_nil_of_length_eq_zero (ha.count.symm.trans hcond.2)

theorem add_absorbed (ha : Absorbed seed bytes rest s) (data : List Byte) :
    (∃ rest', Absorbed seed (bytes ++ data) rest' (s.add data)) ∧
      (s.add data).size = s.size + BitVec.ofNat 32 data.length := by
  have ha₀ : Absorbed seed bytes rest { s with size := s.size + BitVec.ofNat 32 data.length } :=
    ⟨ha.loop, ha.tail, ha.count⟩
  obtain ⟨s', consumed, left, rest', htail, hdata, ha', hsize, hleft⟩ := mixTail_absorbed ha₀ data
  rw [add, htail]
  dsimp only
  rcases hleft with rfl | ⟨rfl, -⟩
  · rw [List.append_nil] at hdata
    rw [hdata] at hsize ⊢
    exact ⟨⟨rest', ha'⟩, hsize⟩
  · -- the words of what is left follow on those before
    cases hwords : wordLoop loadWord mix2 s'.hash left with
    | mk h left' =>
        have hloop : wordLoop loadWord mix2 seed (bytes ++ data) = (h, left') := by
          rw [hdata, ← List.append_assoc, wordLoop_append, ha'.loop]
          exact hwords
        have hfresh : Absorbed h [] [] { s' with hash := h } :=
          ⟨rfl, ha'.tail, ha'.count⟩
        obtain ⟨s'', consumed', left'', rest'', htail', hleft', hall, hsize', hend⟩ :=
          mixTail_absorbed hfresh left'
        have hshort : left'.length < 4 := by
          have hlen : (wordLoop loadWord mix2 s'.hash left).2.length < 4 := wordLoop_rest_length
          rwa [hwords] at hlen
        have hdone : left'' = [] := by
          rcases hend with hnil | ⟨-, hlen⟩
          · exact hnil
          · rw [hleft', List.length_append] at hshort
            omega
        rw [hdone, List.append_nil] at hleft'
        rw [List.nil_append, ← hleft'] at hall
        dsimp only
        rw [htail']
        exact ⟨⟨rest'', hall.trans hloop⟩, hsize'.trans hsize⟩

/-- Adding a key piece by piece gives the hash of the whole key. -/
theorem finish_foldl_add (seed : BitVec 32) (pieces : List (List Byte)) :
    (pieces.foldl add (start seed)).finish = murmurHash2A pieces.flatten seed := by
  have hfold : ∀ (pieces : List (List Byte)) bytes rest s, Absorbed seed bytes rest s →
      s.size = BitVec.ofNat 32 bytes.length →
      (∃ rest', Absorbed seed (bytes ++ pieces.flatten) rest' (pieces.foldl add s)) ∧
        (pieces.foldl add s).size = BitVec.ofNat 32 (bytes ++ pieces.flatten).length := by
    intro pieces
    induction pieces with
    | nil =>
        intro bytes rest s ha hsize
        rw [List.flatten_nil, List.append_nil]
        exact ⟨⟨rest, ha⟩, hsize⟩
    | cons piece pieces ih =>
        intro bytes rest s ha hsize
        obtain ⟨⟨rest', ha'⟩, hsize'⟩ := add_absorbed ha piece
        rw [List.flatten_cons, ← List.append_assoc, List.foldl_cons]
        refine ih _ rest' _ ha' ?_
        rw [hsize', hsize, List.length_append, BitVec.ofNat_add]
  obtain ⟨⟨rest, ha⟩, hsize⟩ := hfold pieces [] [] (start seed) start_absorbed rfl
  rw [List.nil_append] at ha hsize
  rw [finish, murmurHash2A, ha.loop, hsize, ha.tail]
  dsimp only
  rw [joins_xor.fallThrough ha.short, BitVec.zero_xor]

end CMurmurHash2A

end HashComp.Hashes
