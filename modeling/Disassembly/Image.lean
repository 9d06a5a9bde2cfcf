import Disassembly.ByteStream

/-! # Images

An image is a block of bytes with the address it is loaded at. It is read as if zero bytes without
end followed it, so there is a byte at every offset. -/

namespace Disassembly

/-- Bytes loaded at a base address. -/
structure Image where
  base : Address
  bytes : Array UInt8
  deriving DecidableEq, Repr

namespace Image

/-- The number of bytes. -/
def size (m : Image) : Nat := m.bytes.size

/-- The bytes, with zeros after the last one. -/
def stream (m : Image) : ByteStream := fun i => m.bytes.getD i 0

/-- The byte at an offset that may lie before the image, zero outside. -/
def byteAt (m : Image) (i : Int) : UInt8 := if 0 ≤ i then m.stream i.toNat else 0

/-- The word at an offset that may lie before the image, its bytes zero outside. -/
def wordAt (m : Image) (i : Int) : UInt16 := littleEndian (m.byteAt i) (m.byteAt (i + 1))

/-- The address of an offset; the address space wraps. -/
def addressAt (m : Image) (i : Nat) : Address := m.base + UInt16.ofNat i

/-- The image cut to its first `n` bytes. -/
def cut (m : Image) (n : Nat) : Image := { m with bytes := m.bytes.take n }

theorem stream_of_size_le {m : Image} {i : Nat} (h : m.size ≤ i) : m.stream i = 0 := by
  simp only [size, stream] at *
  simp [Array.getD, Nat.not_lt.mpr h]

@[simp] theorem addressAt_zero (m : Image) : m.addressAt 0 = m.base := by simp [addressAt]

theorem addressAt_add (m : Image) (i j : Nat) :
    m.addressAt (i + j) = m.addressAt i + UInt16.ofNat j := by
  simp [addressAt, UInt16.add_assoc]

end Image

end Disassembly
