import Disassembly.Text.Hex

/-! # Addresses

Addresses are 16-bit words and their arithmetic wraps. This module holds the arithmetic that the
instruction sets share (little-endian words, signed bytes, relative targets) and the ways in which
an address is written. -/

namespace Disassembly

/-- A place in the address space of 65536 bytes. -/
abbrev Address := UInt16

/-- The word whose low byte comes first. -/
def littleEndian (low high : UInt8) : UInt16 := low.toUInt16 + 256 * high.toUInt16

/-- A byte read as a number from -128 to 127. -/
def signed (b : UInt8) : Int := if b.toNat < 128 then b.toNat else b.toNat - 256

namespace Address

/-- The address `d` bytes further on, or back if `d` is negative. -/
def move (a : Address) (d : Int) : Address := a + UInt16.ofInt d

/-- The target of a two-byte branch at `a`: the displacement counts from the end of the branch. -/
def branch (a : Address) (displacement : Int) : Address := move (a + 2) displacement

/-- A word written with four digits after a dollar sign. -/
def dollarWord (w : UInt16) : String := "$" ++ Hex.word w

/-- A byte written with two digits after a dollar sign. -/
def dollarByte (b : UInt8) : String := "$" ++ Hex.byte b

/-- The name that an address without one is given. -/
def autoName (a : Address) : String := "L" ++ Hex.word a

end Address

theorem le_signed (b : UInt8) : -128 ≤ signed b := by
  unfold signed
  split <;> omega

end Disassembly
