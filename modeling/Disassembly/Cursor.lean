import Disassembly.Image

/-! # Cursors

A cursor is a position in an image, together with the mark that a decoder moves as it learns where
the code ends. Decoders look at the stream of bytes ahead of the position; the position only moves
forward.

Calls from outside give distances of 64 bits, and a position must itself fit into 64 bits. A call
that would need a position beyond has no answer, and is `none`; so is a read of more bytes than one
block of memory can have. -/

namespace Disassembly

/-- A position in an image. -/
structure Cursor where
  image : Image
  offset : Nat := 0
  mark : Int := 0
  deriving DecidableEq, Repr

namespace Cursor

/-- Whether the position is inside the image. -/
def hasMore (c : Cursor) : Bool := c.offset < c.image.size

/-- The address of the position. -/
def address (c : Cursor) : Address := c.image.addressAt c.offset

/-- The bytes ahead of the position. -/
def ahead (c : Cursor) : ByteStream := c.image.stream.drop c.offset

/-- The position at a distance ahead, if it fits into 64 bits. -/
def position? (c : Cursor) (n : UInt64) : Option Nat :=
  if c.offset + n.toNat < UInt64.size then some (c.offset + n.toNat) else none

/-- The byte at a distance ahead. -/
def peek? (c : Cursor) (n : UInt64) : Option UInt8 := (c.position? n).map c.image.stream

/-- The little-endian word at a distance ahead. The distance of its second byte has to fit into 64
bits as well. -/
def peekWord? (c : Cursor) (n : UInt64) : Option UInt16 :=
  if n.toNat + 1 < UInt64.size then do
    return littleEndian (← c.peek? n) (← c.peek? (n + 1))
  else none

/-- The address of the position, if its distance from address zero fits into 64 bits. -/
def address? (c : Cursor) : Option Address :=
  if c.image.base.toNat + c.offset < UInt64.size then some c.address else none

/-- The cursor `n` bytes further on. -/
def advance (c : Cursor) (n : Nat) : Cursor := { c with offset := c.offset + n }

/-- The cursor with another mark. -/
def withMark (c : Cursor) (mark : Int) : Cursor := { c with mark }

/-- The largest number of bytes in one block of memory. -/
def blockLimit : Nat := 9223372036854775807

/-- The next `n` bytes, and the cursor behind them. -/
def read? (c : Cursor) (n : UInt64) : Option (List UInt8 × Cursor) :=
  if n.toNat ≤ blockLimit then
    (c.position? n).map fun offset => (c.ahead.take n.toNat, { c with offset })
  else none

@[simp] theorem image_advance (c : Cursor) (n : Nat) : (c.advance n).image = c.image := rfl

@[simp] theorem offset_advance (c : Cursor) (n : Nat) : (c.advance n).offset = c.offset + n := rfl

@[simp] theorem mark_advance (c : Cursor) (n : Nat) : (c.advance n).mark = c.mark := rfl

@[simp] theorem image_withMark (c : Cursor) (m : Int) : (c.withMark m).image = c.image := rfl

@[simp] theorem offset_withMark (c : Cursor) (m : Int) : (c.withMark m).offset = c.offset := rfl

@[simp] theorem mark_withMark (c : Cursor) (m : Int) : (c.withMark m).mark = m := rfl

theorem hasMore_iff (c : Cursor) : c.hasMore = true ↔ c.offset < c.image.size := by
  simp [hasMore]

theorem address_advance (c : Cursor) (n : Nat) :
    (c.advance n).address = c.address + UInt16.ofNat n :=
  c.image.addressAt_add c.offset n

theorem ahead_advance (c : Cursor) (n : Nat) : (c.advance n).ahead = c.ahead.drop n := by
  funext k
  simp [ahead, ByteStream.drop, Nat.add_assoc]

end Cursor

end Disassembly
