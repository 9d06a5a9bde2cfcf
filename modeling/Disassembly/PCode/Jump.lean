import Disassembly.Cursor
import Disassembly.Event

/-! # Jumps of p-code

A cursor of p-code stands in the image of one procedure. Behind its code the procedure has a jump
table of words, and behind that eight bytes of attributes. A jump by a negative distance goes
through the word at that distance from the end of the table. Where the table starts is not known
beforehand: the mark of the cursor is the most negative distance seen so far, and from there on the
bytes are taken as words of the table. -/

namespace Disassembly.PCode

/-- The number of bytes of attributes behind the jump table. -/
def attributeBytes : Int := 8

/-- The offset in the image of the word of the jump table at a distance. -/
def slotOffset (m : Image) (distance : Int) : Int := m.size + distance + attributeBytes

/-- Whether the cursor has reached the jump table. -/
def inTable (c : Cursor) : Bool := slotOffset c.image c.mark ≤ c.offset

/-- The target of a jump through the word of the table at a distance: the word counts backward from
its own address. -/
def slotTarget (m : Image) (distance : Int) : Address :=
  let offset := slotOffset m distance
  m.base.move offset - m.wordAt offset

/-- The target of a jump whose opcode is at address `a`. -/
def jumpTarget (m : Image) (a : Address) (distance : Int) : Address :=
  if 0 ≤ distance then (a + 2).move distance else slotTarget m distance

/-- The mark after a jump: a jump through the table lowers it to its distance. -/
def markAfter (mark distance : Int) : Int := if distance < 0 then min mark distance else mark

/-- What a jump reports: the start of the table, if the jump moves it. -/
def jumpEvents (m : Image) (mark distance : Int) : List Event :=
  if markAfter mark distance < mark then [.tableMoved (slotOffset m distance)] else []

/-- The address that the word `k` bytes ahead of a cursor points to, counting backward from its own
address. -/
def selfRelative (c : Cursor) (k : Nat) : Address :=
  c.address + UInt16.ofNat k - c.ahead.word k

end Disassembly.PCode
