import Disassembly.ByteStream
import Disassembly.Instruction

/-! # SWEET16

SWEET16 packs an instruction into two digits. With a zero high digit the low digit names an
operation without register; otherwise the high digit names an operation on the register whose number
is the low digit. -/

namespace Disassembly.Sweet16

/-- The shape of an instruction. -/
inductive Shape where
  /-- A register and a constant word, `SET R1,#$1234`. -/
  | constant
  /-- A register, `LD R1`. -/
  | direct
  /-- The memory that a register points to, `LD @R1`. -/
  | indirect
  /-- A branch by its distance from the end of the instruction. -/
  | branch
  /-- No operand. -/
  | implied
  deriving DecidableEq, Repr

/-- The length of an instruction of the shape. -/
def Shape.length : Shape → Nat
  | constant => 3
  | branch => 2
  | direct | indirect | implied => 1

/-- What the table says of an opcode. -/
structure Entry where
  mnemonic : String
  shape : Shape
  deriving DecidableEq, Repr

/-- The operations without register, by the low digit. -/
def plainOperations : List Entry :=
  [⟨"RTN", .implied⟩, ⟨"BR", .branch⟩, ⟨"BNC", .branch⟩, ⟨"BC", .branch⟩, ⟨"BP", .branch⟩,
    ⟨"BM", .branch⟩, ⟨"BZ", .branch⟩, ⟨"BNZ", .branch⟩, ⟨"BM1", .branch⟩, ⟨"BNM1", .branch⟩,
    ⟨"BK", .implied⟩, ⟨"RS", .implied⟩, ⟨"BS", .branch⟩]

/-- The operations on a register, by the high digit from one on. -/
def registerOperations : List Entry :=
  [⟨"SET", .constant⟩, ⟨"LD", .direct⟩, ⟨"ST", .direct⟩, ⟨"LD", .indirect⟩, ⟨"ST", .indirect⟩,
    ⟨"LDD", .indirect⟩, ⟨"STD", .indirect⟩, ⟨"POP", .indirect⟩, ⟨"STP", .indirect⟩,
    ⟨"ADD", .direct⟩, ⟨"SUB", .direct⟩, ⟨"POPD", .indirect⟩, ⟨"CPR", .direct⟩, ⟨"INR", .direct⟩,
    ⟨"DCR", .direct⟩]

/-- The entry of an opcode. -/
def entry (opcode : UInt8) : Entry :=
  match opcode.toNat / 16 with
  | 0 => plainOperations.getD (opcode.toNat % 16) ⟨undefinedMnemonic, .implied⟩
  | high + 1 => registerOperations.getD high ⟨undefinedMnemonic, .implied⟩

/-- The name of the register that an opcode works on. -/
def register (opcode : UInt8) : String := "R" ++ (opcode.toNat % 16).repr

/-- The operands of an instruction of the shape at address `a`, whose bytes are those of `s`. -/
def Shape.operands (shape : Shape) (a : Address) (s : ByteStream) : List Operand :=
  match shape with
  | constant => [.text (register (s 0)), .text ("#" ++ Address.dollarWord (s.word 1))]
  | direct => [.text (register (s 0))]
  | indirect => [.text ("@" ++ register (s 0))]
  | branch =>
    let target := a.branch (signed (s 1))
    [.bare (Address.dollarWord target) target]
  | implied => []

/-- The instruction at address `a` whose bytes lead the stream. -/
def decode (a : Address) (s : ByteStream) : Instruction :=
  let e := entry (s 0)
  { address := a
    code := s.take e.shape.length
    mnemonic := e.mnemonic
    operands := e.shape.operands a s }

theorem Shape.length_pos (shape : Shape) : 0 < shape.length := by cases shape <;> decide

theorem Shape.length_le (shape : Shape) : shape.length ≤ 3 := by cases shape <;> decide

theorem length_code_decode (a : Address) (s : ByteStream) :
    (decode a s).code.length = (entry (s 0)).shape.length := by
  simp [decode]

end Disassembly.Sweet16
