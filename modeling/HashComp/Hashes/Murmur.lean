import HashComp.Library.ByteMemory

namespace HashComp.Hashes

open HashComp.ByteMemory

def wordLoop (load : Byte → Byte → Byte → Byte → BitVec 32) (mix : BitVec 32 → BitVec 32 → BitVec 32) :
    BitVec 32 → List Byte → BitVec 32 × List Byte
  | h, b₀ :: b₁ :: b₂ :: b₃ :: data => wordLoop load mix (mix h (load b₀ b₁ b₂ b₃)) data
  | h, data => (h, data)

/-- `*(uint32_t *) data`. -/
def loadWord (b₀ b₁ b₂ b₃ : Byte) : BitVec 32 :=
  littleEndian 32 [b₀, b₁, b₂, b₃]

/-- The cases of a `switch` over the number of bytes, each of which falls through to the next. -/
def fallThrough (op : BitVec 32 → BitVec 32 → BitVec 32) (h : BitVec 32) : List Byte → BitVec 32
  | [b₀, b₁, b₂] => op (op (op h (b₂.setWidth 32 <<< 16)) (b₁.setWidth 32 <<< 8)) (b₀.setWidth 32)
  | [b₀, b₁] => op (op h (b₁.setWidth 32 <<< 8)) (b₀.setWidth 32)
  | [b₀] => op h (b₀.setWidth 32)
  | _ => h

/-- The loop of the functions that read at aligned addresses only: a word is put together
from the bytes in `t` that were read before and from the next aligned word. -/
def alignedLoop (mix : BitVec 32 → BitVec 32 → BitVec 32) (align : Nat) :
    BitVec 32 → BitVec 32 → List Byte → BitVec 32 × BitVec 32 × List Byte
  | h, t, b₀ :: b₁ :: b₂ :: b₃ :: data =>
      let d := loadWord b₀ b₁ b₂ b₃
      alignedLoop mix align (mix h (t >>> (8 * align) ||| d <<< (8 * (4 - align)))) d data
  | h, t, data => (h, t, data)

def preload (align : Nat) (data : List Byte) : BitVec 32 :=
  fallThrough (· ||| ·) 0#32 (data.take (4 - align)) <<< (8 * align)

section MurmurHash1

def multiplier1 : BitVec 32 := 0xc6a4a793

def mix1 (h k : BitVec 32) : BitVec 32 :=
  let h := (h + k) * multiplier1
  h ^^^ h >>> 16

def tail1 (h : BitVec 32) (data : List Byte) : BitVec 32 :=
  if data = [] then h
  else
    let h := fallThrough (· + ·) h data * multiplier1
    h ^^^ h >>> 16

def finish1 (h : BitVec 32) : BitVec 32 :=
  let h := h * multiplier1
  let h := h ^^^ h >>> 10
  let h := h * multiplier1
  h ^^^ h >>> 17

def murmurHash1 (key : List Byte) (seed : BitVec 32) : BitVec 32 :=
  let h := seed ^^^ BitVec.ofNat 32 key.length * multiplier1
  match wordLoop loadWord mix1 h key with
  | (h, data) => finish1 (tail1 h data)

def murmurHash1Aligned (address : Nat) (key : List Byte) (seed : BitVec 32) : BitVec 32 :=
  let h := seed ^^^ BitVec.ofNat 32 key.length * multiplier1
  let align := address % 4
  if align ≠ 0 ∧ 4 ≤ key.length then
    match alignedLoop mix1 align h (preload align key) (key.drop (4 - align)) with
    | (h, t, data) =>
        let pack := if data.length < align then data.length else align
        let d := fallThrough (· ||| ·) 0#32 (data.take pack)
        let h := mix1 h (t >>> (8 * align) ||| d <<< (8 * (4 - align)))
        finish1 (tail1 h (data.drop pack))
  else
    match wordLoop loadWord mix1 h key with
    | (h, data) => finish1 (tail1 h data)

end MurmurHash1

section MurmurHash2

def multiplier2 : BitVec 32 := 0x5bd1e995

def scramble (k : BitVec 32) : BitVec 32 :=
  let k := k * multiplier2
  let k := k ^^^ k >>> 24
  k * multiplier2

def mix2 (h k : BitVec 32) : BitVec 32 :=
  h * multiplier2 ^^^ scramble k

def tail2 (h : BitVec 32) (data : List Byte) : BitVec 32 :=
  if data = [] then h else fallThrough (· ^^^ ·) h data * multiplier2

def finish2 (h : BitVec 32) : BitVec 32 :=
  let h := h ^^^ h >>> 13
  let h := h * multiplier2
  h ^^^ h >>> 15

def murmurHash2 (key : List Byte) (seed : BitVec 32) : BitVec 32 :=
  match wordLoop loadWord mix2 (seed ^^^ BitVec.ofNat 32 key.length) key with
  | (h, data) => finish2 (tail2 h data)

def loadBytes (b₀ b₁ b₂ b₃ : Byte) : BitVec 32 :=
  b₀.setWidth 32 ||| b₁.setWidth 32 <<< 8 ||| b₂.setWidth 32 <<< 16 ||| b₃.setWidth 32 <<< 24

def murmurHashNeutral2 (key : List Byte) (seed : BitVec 32) : BitVec 32 :=
  match wordLoop loadBytes mix2 (seed ^^^ BitVec.ofNat 32 key.length) key with
  | (h, data) => finish2 (tail2 h data)

def murmurHashAligned2 (address : Nat) (key : List Byte) (seed : BitVec 32) : BitVec 32 :=
  let h := seed ^^^ BitVec.ofNat 32 key.length
  let align := address % 4
  if align ≠ 0 ∧ 4 ≤ key.length then
    match alignedLoop mix2 align h (preload align key) (key.drop (4 - align)) with
    | (h, t, data) =>
        if align ≤ data.length then
          let d := fallThrough (· ||| ·) 0#32 (data.take align)
          let h := mix2 h (t >>> (8 * align) ||| d <<< (8 * (4 - align)))
          finish2 (tail2 h (data.drop align))
        else
          let d := fallThrough (· ||| ·) 0#32 data
          finish2 ((h ^^^ (t >>> (8 * align) ||| d <<< (8 * (4 - align)))) * multiplier2)
  else
    match wordLoop loadWord mix2 h key with
    | (h, data) => finish2 (tail2 h data)

def murmurHash2A (key : List Byte) (seed : BitVec 32) : BitVec 32 :=
  match wordLoop loadWord mix2 seed key with
  | (h, data) =>
      let t := fallThrough (· ^^^ ·) 0#32 data
      finish2 (mix2 (mix2 h t) (BitVec.ofNat 32 key.length))

/-- The words of the two halves of `MurmurHash64B`, as long as there are eight bytes. -/
def pairLoop : BitVec 32 → BitVec 32 → List Byte → BitVec 32 × BitVec 32 × List Byte
  | h₁, h₂, b₀ :: b₁ :: b₂ :: b₃ :: b₄ :: b₅ :: b₆ :: b₇ :: data =>
      pairLoop (mix2 h₁ (loadWord b₀ b₁ b₂ b₃)) (mix2 h₂ (loadWord b₄ b₅ b₆ b₇)) data
  | h₁, h₂, data => (h₁, h₂, data)

def finish64B (h₁ h₂ : BitVec 32) : BitVec 64 :=
  let h₁ := h₁ ^^^ h₂ >>> 18
  let h₁ := h₁ * multiplier2
  let h₂ := h₂ ^^^ h₁ >>> 22
  let h₂ := h₂ * multiplier2
  let h₁ := h₁ ^^^ h₂ >>> 17
  let h₁ := h₁ * multiplier2
  let h₂ := h₂ ^^^ h₁ >>> 19
  let h₂ := h₂ * multiplier2
  h₁.setWidth 64 <<< 32 ||| h₂.setWidth 64

def murmurHash64B (key : List Byte) (seed : BitVec 64) : BitVec 64 :=
  match pairLoop (seed.setWidth 32 ^^^ BitVec.ofNat 32 key.length) ((seed >>> 32).setWidth 32) key with
  | (h₁, h₂, data) =>
      match data with
      | b₀ :: b₁ :: b₂ :: b₃ :: data =>
          finish64B (mix2 h₁ (loadWord b₀ b₁ b₂ b₃)) (tail2 h₂ data)
      | data => finish64B h₁ (tail2 h₂ data)

end MurmurHash2

section Incremental

structure CMurmurHash2A where
  hash : BitVec 32
  tail : BitVec 32
  count : Nat
  size : BitVec 32

namespace CMurmurHash2A

/-- `Begin` -/
def start (seed : BitVec 32) : CMurmurHash2A where
  hash := seed
  tail := 0#32
  count := 0
  size := 0#32

def mixByte (s : CMurmurHash2A) (b : Byte) : CMurmurHash2A :=
  let tail := s.tail ||| b.setWidth 32 <<< (s.count * 8)
  let count := s.count + 1
  if count = 4 then { s with hash := mix2 s.hash tail, tail := 0#32, count := 0 }
  else { s with tail := tail, count := count }

def mixTail : CMurmurHash2A → List Byte → CMurmurHash2A × List Byte
  | s, [] => (s, [])
  | s, b :: data =>
      if data.length + 1 < 4 ∨ s.count ≠ 0 then mixTail (s.mixByte b) data else (s, b :: data)

def add (s : CMurmurHash2A) (data : List Byte) : CMurmurHash2A :=
  match mixTail { s with size := s.size + BitVec.ofNat 32 data.length } data with
  | (s, data) =>
      match wordLoop loadWord mix2 s.hash data with
      | (h, data) => (mixTail { s with hash := h } data).1

/-- `End` -/
def finish (s : CMurmurHash2A) : BitVec 32 :=
  finish2 (mix2 (mix2 s.hash s.tail) s.size)

end CMurmurHash2A

end Incremental

end HashComp.Hashes
