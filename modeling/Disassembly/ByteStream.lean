import Disassembly.Address

/-! # Streams of bytes

Decoders look at the bytes ahead of a position. These never end, since zero bytes follow an image,
so they are a function from distances to bytes; an instruction is determined by its address and this
function alone. -/

namespace Disassembly

/-- Bytes without end, by their distance from the front. -/
abbrev ByteStream := Nat → UInt8

namespace ByteStream

/-- The little-endian word at a distance. -/
def word (s : ByteStream) (k : Nat) : UInt16 := littleEndian (s k) (s (k + 1))

/-- The first `n` bytes. -/
def take (s : ByteStream) (n : Nat) : List UInt8 := (List.range n).map s

/-- The stream without its first `n` bytes. -/
def drop (s : ByteStream) (n : Nat) : ByteStream := fun k => s (n + k)

@[simp] theorem length_take (s : ByteStream) (n : Nat) : (s.take n).length = n := by simp [take]

@[simp] theorem take_zero (s : ByteStream) : s.take 0 = [] := rfl

theorem take_add (s : ByteStream) (m n : Nat) : s.take (m + n) = s.take m ++ (s.drop m).take n := by
  simp [take, drop, List.range_add]

theorem take_succ (s : ByteStream) (n : Nat) : s.take (n + 1) = s.take n ++ [s n] := by
  simp [take, List.range_succ]

@[simp] theorem drop_zero (s : ByteStream) : s.drop 0 = s := by
  funext k
  simp [drop]

theorem drop_drop (s : ByteStream) (m n : Nat) : (s.drop m).drop n = s.drop (m + n) := by
  funext k
  simp [drop, Nat.add_assoc]

theorem take_congr {s t : ByteStream} {n : Nat} (h : ∀ k < n, s k = t k) : s.take n = t.take n :=
  List.map_congr_left fun k hk => h k (List.mem_range.1 hk)

theorem getElem?_take (s : ByteStream) (n k : Nat) :
    (s.take n)[k]? = if k < n then some (s k) else none := by
  by_cases h : k < n <;> simp [take, h]

end ByteStream

end Disassembly
