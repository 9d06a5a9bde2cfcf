import Disassembly.Mos6502.Mode

/-! # Instruction tables of the 6502 family

The tables are grids of sixteen rows and sixteen columns: the high digit of an opcode names the row
and the low digit the column. The NMOS processor has one grid of modes, for its documented and its
undocumented opcodes; a cell `???` of a grid of mnemonics stands for an opcode that is not defined.
-/

namespace Disassembly.Mos6502

/-- Sixteen rows of sixteen cells. -/
abbrev Grid (α : Type) := List (List α)

/-- The cell of an opcode. -/
def Grid.cell {α : Type} (g : Grid α) (outside : α) (opcode : UInt8) : α :=
  (g.getD (opcode.toNat / 16) []).getD (opcode.toNat % 16) outside

/-! ### Modes

The cells are written with three letters at most. -/

private abbrev imp : Mode := .implicit
private abbrev acc : Mode := .accumulator
private abbrev imm : Mode := .immediate
private abbrev zp : Mode := .zeroPage
private abbrev zpx : Mode := .zeroPageX
private abbrev zpy : Mode := .zeroPageY
private abbrev rel : Mode := .relative
private abbrev abs : Mode := .absolute
private abbrev abx : Mode := .absoluteX
private abbrev aby : Mode := .absoluteY
private abbrev ind : Mode := .indirect
private abbrev iax : Mode := .absoluteIndexedIndirect
private abbrev izp : Mode := .zeroPageIndirect
private abbrev inx : Mode := .indirectX
private abbrev iny : Mode := .indirectY
private abbrev u1 : Mode := .undefined1
private abbrev u2 : Mode := .undefined2
private abbrev u3 : Mode := .undefined3

/-- The modes of the NMOS processor, undocumented opcodes included. -/
def nmosModes : Grid Mode :=
  [ [imp, inx, imm, inx, zp, zp, zp, zp, imp, imm, acc, imm, abs, abs, abs, abs],
    [rel, iny, imm, iny, zpx, zpx, zpx, zpx, imp, aby, imp, aby, abx, abx, abx, abx],
    [abs, inx, imm, inx, zp, zp, zp, zp, imp, imm, acc, imm, abs, abs, abs, abs],
    [rel, iny, imm, iny, zpx, zpx, zpx, zpx, imp, aby, imp, aby, abx, abx, abx, abx],
    [imp, inx, imm, inx, zp, zp, zp, zp, imp, imm, acc, imm, abs, abs, abs, abs],
    [rel, iny, imm, iny, zpx, zpx, zpx, zpx, imp, aby, imp, aby, abx, abx, abx, abx],
    [imp, inx, imm, inx, zp, zp, zp, zp, imp, imm, acc, imm, ind, abs, abs, abs],
    [rel, iny, imm, iny, zpx, zpx, zpx, zpx, imp, aby, imp, aby, abx, abx, abx, abx],
    [imm, inx, imm, inx, zp, zp, zp, zp, imp, imm, imp, imm, abs, abs, abs, abs],
    [rel, iny, imm, iny, zpx, zpx, zpy, zpy, imp, aby, imp, aby, abx, abx, aby, aby],
    [imm, inx, imm, inx, zp, zp, zp, zp, imp, imm, imp, imm, abs, abs, abs, abs],
    [rel, iny, imm, iny, zpx, zpx, zpy, zpy, imp, aby, imp, aby, abx, abx, aby, aby],
    [imm, inx, imm, inx, zp, zp, zp, zp, imp, imm, imp, imm, abs, abs, abs, abs],
    [rel, iny, imm, iny, zpx, zpx, zpx, zpx, imp, aby, imp, aby, abx, abx, abx, abx],
    [imm, inx, imm, inx, zp, zp, zp, zp, imp, imm, imp, imm, abs, abs, abs, abs],
    [rel, iny, imm, iny, zpx, zpx, zpx, zpx, imp, aby, imp, aby, abx, abx, abx, abx] ]

/-- The modes of the CMOS processor. Its columns 7 and F have no instructions. -/
def cmosModes : Grid Mode :=
  [ [imp, inx, u2, u1, zp, zp, zp, u1, imp, imm, acc, u1, abs, abs, abs, u1],
    [rel, iny, izp, u1, zp, zpx, zpx, u1, imp, aby, acc, u1, abs, abx, abx, u1],
    [abs, inx, u2, u1, zp, zp, zp, u1, imp, imm, acc, u1, abs, abs, abs, u1],
    [rel, iny, izp, u1, zpx, zpx, zpx, u1, imp, aby, acc, u1, abx, abx, abx, u1],
    [imp, inx, u2, u1, u2, zp, zp, u1, imp, imm, acc, u1, abs, abs, abs, u1],
    [rel, iny, izp, u1, u2, zpx, zpx, u1, imp, aby, imp, u1, u3, abx, abx, u1],
    [imp, inx, u2, u1, zp, zp, zp, u1, imp, imm, acc, u1, ind, abs, abs, u1],
    [rel, iny, izp, u1, zpx, zpx, zpx, u1, imp, aby, imp, u1, iax, abx, abx, u1],
    [rel, inx, u2, u1, zp, zp, zp, u1, imp, imm, imp, u1, abs, abs, abs, u1],
    [rel, iny, izp, u1, zpx, zpx, zpy, u1, imp, aby, imp, u1, abs, abx, abx, u1],
    [imm, inx, imm, u1, zp, zp, zp, u1, imp, imm, imp, u1, abs, abs, abs, u1],
    [rel, iny, izp, u1, zpx, zpx, zpy, u1, imp, aby, imp, u1, abx, abx, aby, u1],
    [imm, inx, u2, u1, zp, zp, zp, u1, imp, imm, imp, u1, abs, abs, abs, u1],
    [rel, iny, izp, u1, u2, zpx, zpx, u1, imp, aby, imp, u1, u3, abx, abx, u1],
    [imm, inx, u2, u1, zp, zp, zp, u1, imp, imm, imp, u1, abs, abs, abs, u1],
    [rel, iny, izp, u1, u2, zpx, zpx, u1, imp, aby, imp, u1, u3, abx, abx, u1] ]

/-! ### Mnemonics -/

/-- The documented mnemonics of the NMOS processor. -/
def nmosMnemonics : Grid String :=
  [ ["BRK", "ORA", "???", "???", "???", "ORA", "ASL", "???",
      "PHP", "ORA", "ASL", "???", "???", "ORA", "ASL", "???"],
    ["BPL", "ORA", "???", "???", "???", "ORA", "ASL", "???",
      "CLC", "ORA", "???", "???", "???", "ORA", "ASL", "???"],
    ["JSR", "AND", "???", "???", "BIT", "AND", "ROL", "???",
      "PLP", "AND", "ROL", "???", "BIT", "AND", "ROL", "???"],
    ["BMI", "AND", "???", "???", "???", "AND", "ROL", "???",
      "SEC", "AND", "???", "???", "???", "AND", "ROL", "???"],
    ["RTI", "EOR", "???", "???", "???", "EOR", "LSR", "???",
      "PHA", "EOR", "LSR", "???", "JMP", "EOR", "LSR", "???"],
    ["BVC", "EOR", "???", "???", "???", "EOR", "LSR", "???",
      "CLI", "EOR", "???", "???", "???", "EOR", "LSR", "???"],
    ["RTS", "ADC", "???", "???", "???", "ADC", "ROR", "???",
      "PLA", "ADC", "ROR", "???", "JMP", "ADC", "ROR", "???"],
    ["BVS", "ADC", "???", "???", "???", "ADC", "ROR", "???",
      "SEI", "ADC", "???", "???", "???", "ADC", "ROR", "???"],
    ["???", "STA", "???", "???", "STY", "STA", "STX", "???",
      "DEY", "???", "TXA", "???", "STY", "STA", "STX", "???"],
    ["BCC", "STA", "???", "???", "STY", "STA", "STX", "???",
      "TYA", "STA", "TXS", "???", "???", "STA", "???", "???"],
    ["LDY", "LDA", "LDX", "???", "LDY", "LDA", "LDX", "???",
      "TAY", "LDA", "TAX", "???", "LDY", "LDA", "LDX", "???"],
    ["BCS", "LDA", "???", "???", "LDY", "LDA", "LDX", "???",
      "CLV", "LDA", "TSX", "???", "LDY", "LDA", "LDX", "???"],
    ["CPY", "CMP", "???", "???", "CPY", "CMP", "DEC", "???",
      "INY", "CMP", "DEX", "???", "CPY", "CMP", "DEC", "???"],
    ["BNE", "CMP", "???", "???", "???", "CMP", "DEC", "???",
      "CLD", "CMP", "???", "???", "???", "CMP", "DEC", "???"],
    ["CPX", "SBC", "???", "???", "CPX", "SBC", "INC", "???",
      "INX", "SBC", "NOP", "???", "CPX", "SBC", "INC", "???"],
    ["BEQ", "SBC", "???", "???", "???", "SBC", "INC", "???",
      "SED", "SBC", "???", "???", "???", "SBC", "INC", "???"] ]

/-- The mnemonics of the NMOS processor, undocumented opcodes included. -/
def undocumentedMnemonics : Grid String :=
  [ ["BRK", "ORA", "JAM", "SLO", "NOP", "ORA", "ASL", "SLO",
      "PHP", "ORA", "ASL", "ANC", "NOP", "ORA", "ASL", "SLO"],
    ["BPL", "ORA", "JAM", "SLO", "NOP", "ORA", "ASL", "SLO",
      "CLC", "ORA", "NOP", "SLO", "NOP", "ORA", "ASL", "SLO"],
    ["JSR", "AND", "JAM", "RLA", "BIT", "AND", "ROL", "RLA",
      "PLP", "AND", "ROL", "ANC", "BIT", "AND", "ROL", "RLA"],
    ["BMI", "AND", "JAM", "RLA", "NOP", "AND", "ROL", "RLA",
      "SEC", "AND", "NOP", "RLA", "NOP", "AND", "ROL", "RLA"],
    ["RTI", "EOR", "JAM", "SRE", "NOP", "EOR", "LSR", "SRE",
      "PHA", "EOR", "LSR", "ALR", "JMP", "EOR", "LSR", "SRE"],
    ["BVC", "EOR", "JAM", "SRE", "NOP", "EOR", "LSR", "SRE",
      "CLI", "EOR", "NOP", "SRE", "NOP", "EOR", "LSR", "SRE"],
    ["RTS", "ADC", "JAM", "RRA", "NOP", "ADC", "ROR", "RRA",
      "PLA", "ADC", "ROR", "ARR", "JMP", "ADC", "ROR", "RRA"],
    ["BVS", "ADC", "JAM", "RRA", "NOP", "ADC", "ROR", "RRA",
      "SEI", "ADC", "NOP", "RRA", "NOP", "ADC", "ROR", "RRA"],
    ["NOP", "STA", "NOP", "SAX", "STY", "STA", "STX", "SAX",
      "DEY", "NOP", "TXA", "ANE", "STY", "STA", "STX", "SAX"],
    ["BCC", "STA", "JAM", "SHA", "STY", "STA", "STX", "SAX",
      "TYA", "STA", "TXS", "TAS", "SHY", "STA", "SHX", "SHA"],
    ["LDY", "LDA", "LDX", "LAX", "LDY", "LDA", "LDX", "LAX",
      "TAY", "LDA", "TAX", "LXA", "LDY", "LDA", "LDX", "LAX"],
    ["BCS", "LDA", "JAM", "LAX", "LDY", "LDA", "LDX", "LAX",
      "CLV", "LDA", "TSX", "LAS", "LDY", "LDA", "LDX", "LAX"],
    ["CPY", "CMP", "NOP", "DCP", "CPY", "CMP", "DEC", "DCP",
      "INY", "CMP", "DEX", "SBX", "CPY", "CMP", "DEC", "DCP"],
    ["BNE", "CMP", "JAM", "DCP", "NOP", "CMP", "DEC", "DCP",
      "CLD", "CMP", "NOP", "DCP", "NOP", "CMP", "DEC", "DCP"],
    ["CPX", "SBC", "NOP", "ISC", "CPX", "SBC", "INC", "ISC",
      "INX", "SBC", "NOP", "USBC", "CPX", "SBC", "INC", "ISC"],
    ["BEQ", "SBC", "JAM", "ISC", "NOP", "SBC", "INC", "ISC",
      "SED", "SBC", "NOP", "ISC", "NOP", "SBC", "INC", "ISC"] ]

/-- The mnemonics of the CMOS processor. -/
def cmosMnemonics : Grid String :=
  [ ["BRK", "ORA", "???", "???", "TSB", "ORA", "ASL", "???",
      "PHP", "ORA", "ASL", "???", "TSB", "ORA", "ASL", "???"],
    ["BPL", "ORA", "ORA", "???", "TRB", "ORA", "ASL", "???",
      "CLC", "ORA", "INC", "???", "TRB", "ORA", "ASL", "???"],
    ["JSR", "AND", "???", "???", "BIT", "AND", "ROL", "???",
      "PLP", "AND", "ROL", "???", "BIT", "AND", "ROL", "???"],
    ["BMI", "AND", "AND", "???", "BIT", "AND", "ROL", "???",
      "SEC", "AND", "DEC", "???", "BIT", "AND", "ROL", "???"],
    ["RTI", "EOR", "???", "???", "???", "EOR", "LSR", "???",
      "PHA", "EOR", "LSR", "???", "JMP", "EOR", "LSR", "???"],
    ["BVC", "EOR", "EOR", "???", "???", "EOR", "LSR", "???",
      "CLI", "EOR", "PHY", "???", "???", "EOR", "LSR", "???"],
    ["RTS", "ADC", "???", "???", "STZ", "ADC", "ROR", "???",
      "PLA", "ADC", "ROR", "???", "JMP", "ADC", "ROR", "???"],
    ["BVS", "ADC", "ADC", "???", "STZ", "ADC", "ROR", "???",
      "SEI", "ADC", "PLY", "???", "JMP", "ADC", "ROR", "???"],
    ["BRA", "STA", "???", "???", "STY", "STA", "STX", "???",
      "DEY", "BIT", "TXA", "???", "STY", "STA", "STX", "???"],
    ["BCC", "STA", "STA", "???", "STY", "STA", "STX", "???",
      "TYA", "STA", "TXS", "???", "STZ", "STA", "STZ", "???"],
    ["LDY", "LDA", "LDX", "???", "LDY", "LDA", "LDX", "???",
      "TAY", "LDA", "TAX", "???", "LDY", "LDA", "LDX", "???"],
    ["BCS", "LDA", "LDA", "???", "LDY", "LDA", "LDX", "???",
      "CLV", "LDA", "TSX", "???", "LDY", "LDA", "LDX", "???"],
    ["CPY", "CMP", "???", "???", "CPY", "CMP", "DEC", "???",
      "INY", "CMP", "DEX", "???", "CPY", "CMP", "DEC", "???"],
    ["BNE", "CMP", "CMP", "???", "???", "CMP", "DEC", "???",
      "CLD", "CMP", "PHX", "???", "???", "CMP", "DEC", "???"],
    ["CPX", "SBC", "???", "???", "CPX", "SBC", "INC", "???",
      "INX", "SBC", "NOP", "???", "CPX", "SBC", "INC", "???"],
    ["BEQ", "SBC", "SBC", "???", "???", "SBC", "INC", "???",
      "SED", "SBC", "PLX", "???", "???", "SBC", "INC", "???"] ]

end Disassembly.Mos6502
