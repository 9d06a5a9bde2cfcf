import Disassembly.Operand

/-! # Instructions

An instruction has an address, the bytes it was read from, a mnemonic and operands. Directives are
instructions without bytes. -/

namespace Disassembly

/-- The mnemonic of a byte that no instruction starts with. -/
def undefinedMnemonic : String := "???"

/-- The mnemonic of a byte that was not decoded. -/
def skippedMnemonic : String := "---"

/-- One line of a listing. -/
structure Instruction where
  address : Address
  code : List UInt8 := []
  mnemonic : String := ""
  operands : List Operand := []
  deriving DecidableEq, Repr

namespace Instruction

/-- The first address that the operands refer to. -/
def target (i : Instruction) : Option Address := i.operands.findSome? Operand.address

/-- The operands as they are shown, separated by commas. -/
def renderOperands (names : Address → Option String) (i : Instruction) : String :=
  ",".intercalate (i.operands.map (Operand.render names))

/-- The line as it is shown: the mnemonic, and after a blank the operands if they show anything. -/
def render (names : Address → Option String) (i : Instruction) : String :=
  let operands := i.renderOperands names
  if operands.isEmpty then i.mnemonic else i.mnemonic ++ " " ++ operands

/-- The line without names for addresses. -/
def plain (i : Instruction) : String := i.render fun _ => none

/-- A byte that is passed over. -/
def skipped (address : Address) (b : UInt8) : Instruction :=
  { address, code := [b], mnemonic := skippedMnemonic }

end Instruction

end Disassembly
