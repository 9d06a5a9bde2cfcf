import Disassembly.ByteStream
import Disassembly.Operand

/-! # Addressing modes of the 6502 family

An addressing mode fixes how long an instruction is and how its operand is shown. -/

namespace Disassembly.Mos6502

/-- How an instruction finds its operand. -/
inductive Mode where
  /-- No operand. -/
  | implicit
  /-- The accumulator, which is not shown. -/
  | accumulator
  /-- A constant byte, `#$10`. -/
  | immediate
  /-- An address below 256, `$80`. -/
  | zeroPage
  /-- An address below 256 indexed by X, `$80,X`. -/
  | zeroPageX
  /-- An address below 256 indexed by Y, `$80,Y`. -/
  | zeroPageY
  /-- A branch target by its distance from the end of the instruction. -/
  | relative
  /-- An address, `$1234`. -/
  | absolute
  /-- An address indexed by X, `$1234,X`. -/
  | absoluteX
  /-- An address indexed by Y, `$1234,Y`. -/
  | absoluteY
  /-- A pointer, `($1234)`. -/
  | indirect
  /-- A table of pointers indexed by X, `($1234,X)`. -/
  | absoluteIndexedIndirect
  /-- A pointer below 256, `($40)`. -/
  | zeroPageIndirect
  /-- A table of pointers below 256 indexed by X, `($40,X)`. -/
  | indirectX
  /-- A pointer below 256 whose target is indexed by Y, `($40),Y`. -/
  | indirectY
  /-- An undefined opcode of one byte. -/
  | undefined1
  /-- An undefined opcode of two bytes. -/
  | undefined2
  /-- An undefined opcode of three bytes. -/
  | undefined3
  deriving DecidableEq, Repr

namespace Mode

/-- The length of an instruction of the mode, opcode included. -/
def length : Mode → Nat
  | implicit | accumulator | undefined1 => 1
  | immediate | zeroPage | zeroPageX | zeroPageY | relative | zeroPageIndirect | indirectX
  | indirectY | undefined2 => 2
  | absolute | absoluteX | absoluteY | indirect | absoluteIndexedIndirect | undefined3 => 3

/-- Whether the operand is a distance. -/
def isRelative (m : Mode) : Bool := m == relative

/-- The operands of an instruction of the mode at address `a`, whose bytes are those of `s`. -/
def operands (m : Mode) (a : Address) (s : ByteStream) : List Operand :=
  let b := s 1
  let byte := Address.dollarByte b
  let w := s.word 1
  let word := Address.dollarWord w
  match m with
  | implicit | accumulator | undefined1 => []
  | immediate => [.text ("#" ++ byte)]
  | zeroPage | undefined2 => [.bare byte b.toUInt16]
  | zeroPageX => [.bare byte b.toUInt16, .text "X"]
  | zeroPageY => [.bare byte b.toUInt16, .text "Y"]
  | zeroPageIndirect => [.bracketed byte b.toUInt16]
  | indirectX => [.opened byte b.toUInt16, .text "X)"]
  | indirectY => [.bracketed byte b.toUInt16, .text "Y"]
  | absolute | undefined3 => [.bare word w]
  | absoluteX => [.bare word w, .text "X"]
  | absoluteY => [.bare word w, .text "Y"]
  | indirect => [.bracketed word w]
  | absoluteIndexedIndirect => [.opened word w, .text "X)"]
  | relative =>
    let target := a.branch (signed b)
    [.bare (Address.dollarWord target) target]

theorem length_pos (m : Mode) : 0 < m.length := by cases m <;> decide

theorem length_le (m : Mode) : m.length ≤ 3 := by cases m <;> decide

end Mode

end Disassembly.Mos6502
