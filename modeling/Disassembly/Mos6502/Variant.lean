import Disassembly.Instruction
import Disassembly.Mos6502.Table

/-! # Processors of the 6502 family

Three processors read the same stream with different tables: the NMOS processor with its documented
opcodes only, the same processor with all its opcodes, and the CMOS processor. -/

namespace Disassembly.Mos6502

/-- A processor of the family. -/
inductive Variant where
  /-- The documented opcodes of the NMOS processor. -/
  | nmos
  /-- All opcodes of the NMOS processor. -/
  | undocumented
  /-- The CMOS processor. -/
  | cmos
  deriving DecidableEq, Repr

/-- What a table says of an opcode. -/
structure Entry where
  mnemonic : String
  mode : Mode
  deriving DecidableEq, Repr

/-- The entry of an opcode in a grid of NMOS mnemonics. An opcode that is not defined is taken as a
single byte. -/
def nmosEntry (mnemonics : Grid String) (opcode : UInt8) : Entry :=
  let mnemonic := mnemonics.cell undefinedMnemonic opcode
  if mnemonic = undefinedMnemonic then ⟨mnemonic, .implicit⟩
  else ⟨mnemonic, nmosModes.cell .implicit opcode⟩

/-- The entry of an opcode. The CMOS processor fixes the lengths of the opcodes it does not define.
-/
def Variant.entry (v : Variant) (opcode : UInt8) : Entry :=
  match v with
  | .nmos => nmosEntry nmosMnemonics opcode
  | .undocumented => nmosEntry undocumentedMnemonics opcode
  | .cmos => ⟨cmosMnemonics.cell undefinedMnemonic opcode, cmosModes.cell .implicit opcode⟩

/-- The instruction at address `a` whose bytes lead the stream. -/
def Variant.decode (v : Variant) (a : Address) (s : ByteStream) : Instruction :=
  let entry := v.entry (s 0)
  { address := a
    code := s.take entry.mode.length
    mnemonic := entry.mnemonic
    operands := entry.mode.operands a s }

theorem Variant.length_code_decode (v : Variant) (a : Address) (s : ByteStream) :
    (v.decode a s).code.length = (v.entry (s 0)).mode.length := by
  simp [decode]

end Disassembly.Mos6502
