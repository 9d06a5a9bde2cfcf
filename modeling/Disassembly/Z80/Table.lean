import Disassembly.Z80.Form

/-! # Instruction table of the Z80

An opcode is read as three octal digits: its quarter, its row and its column. The main page leads to
two further pages of the same size. -/

namespace Disassembly.Z80

/-- A form with a single mnemonic. -/
private def plain (mnemonic : String) (parts : List Part) : Form := .operation (.one mnemonic) parts

/-- An operand that is a text. -/
private def lit (text : String) : Part := .always (.fixed text)

private abbrev accumulator : Part := lit "A"
private abbrev pairHl : Part := .always .hl
private abbrev constWord : Part := .always .word
private abbrev constByte : Part := .always .byte
private abbrev place : Part := .always .address
private abbrev atPlace : Part := .always .atAddress
private abbrev distance : Part := .always .offset

/-! ### The main page -/

/-- The first quarter: loads of constants, counting, relative jumps. -/
def firstQuarter (row column : Nat) : Form :=
  match column, row with
  | 0, 0 => plain "NOP" []
  | 0, 1 => plain "EX" [lit "AF", lit "AF'"]
  | 0, 2 => plain "DJNZ" [distance]
  | 0, 3 => plain "JR" [distance]
  | 0, _ => plain "JR" [.branchCondition, distance]
  | 1, row => if row % 2 = 0 then plain "LD" [.pair, constWord] else plain "ADD" [pairHl, .pair]
  | 2, 0 | 2, 2 => plain "LD" [.pointerPair, accumulator]
  | 2, 1 | 2, 3 => plain "LD" [accumulator, .pointerPair]
  | 2, 4 => plain "LD" [atPlace, pairHl]
  | 2, 5 => plain "LD" [pairHl, atPlace]
  | 2, 6 => plain "LD" [atPlace, accumulator]
  | 2, _ => plain "LD" [accumulator, atPlace]
  | 3, row => plain (if row % 2 = 0 then "INC" else "DEC") [.pair]
  | 4, _ => plain "INC" [.destination]
  | 5, _ => plain "DEC" [.destination]
  | 6, _ => plain "LD" [.destination, constByte]
  | _, row => plain (["RLCA", "RRCA", "RLA", "RRA", "DAA", "CPL", "SCF"].getD row "CCF") []

/-- The last quarter: jumps, calls, the stack, constants in arithmetic, and the ways to other pages.
-/
def lastQuarter (row column : Nat) : Form :=
  match column, row with
  | 0, _ => plain "RET" [.condition]
  | 1, 1 => plain "RET" []
  | 1, 3 => plain "EXX" []
  | 1, 5 => plain "JP" [.always .atHl]
  | 1, 7 => plain "LD" [lit "SP", pairHl]
  | 1, _ => plain "POP" [.stackPair]
  | 2, _ => plain "JP" [.condition, place]
  | 3, 0 => plain "JP" [place]
  | 3, 1 => .page .bits
  | 3, 2 => plain "OUT" [.always .device, accumulator]
  | 3, 3 => plain "IN" [accumulator, .always .device]
  | 3, 4 => plain "EX" [lit "(SP)", pairHl]
  | 3, 5 => plain "EX" [lit "DE", pairHl]
  | 3, 6 => plain "DI" []
  | 3, _ => plain "EI" []
  | 4, _ => plain "CALL" [.condition, place]
  | 5, 1 => plain "CALL" [place]
  | 5, 3 => .override .ix
  | 5, 5 => .page .extended
  | 5, 7 => .override .iy
  | 5, _ => plain "PUSH" [.stackPair]
  | 6, _ => .operation .arithmetic [accumulator, constByte]
  | _, _ => plain "RST" [.restart]

/-- The form of an opcode of the main page. -/
def mainForm (opcode : UInt8) : Form :=
  let row := opcode.toNat / 8 % 8
  let column := opcode.toNat % 8
  match opcode.toNat / 64 with
  | 0 => firstQuarter row column
  | 1 => if row = 6 ∧ column = 6 then plain "HALT" [] else plain "LD" [.destination, .source]
  | 2 => .operation .arithmetic [accumulator, .source]
  | _ => lastQuarter row column

/-! ### The other pages -/

/-- The form of an opcode of the page of rotations and single bits. -/
def bitsForm (opcode : UInt8) : Form :=
  match opcode.toNat / 64 with
  | 0 =>
    plain (["RLC", "RRC", "RL", "RR", "SLA", "SRA", "SLL"].getD (opcode.toNat / 8 % 8) "SRL")
      [.source]
  | 1 => plain "BIT" [.bit, .source]
  | 2 => plain "RES" [.bit, .source]
  | _ => plain "SET" [.bit, .source]

/-- The second quarter of the extended page. -/
def extendedQuarter (row column : Nat) : Form :=
  match column, row with
  | 0, _ => plain "IN" [.destination, lit "(C)"]
  | 1, _ => plain "OUT" [lit "(C)", .destination]
  | 2, row => plain (if row % 2 = 0 then "SBC" else "ADC") [pairHl, .pair]
  | 3, row => plain "LD" (if row % 2 = 0 then [atPlace, .pair] else [.pair, atPlace])
  | 4, 0 => plain "NEG" []
  | 5, 0 => plain "RETN" []
  | 5, 1 => plain "RETI" []
  | 6, 0 => plain "IM" [lit "0"]
  | 6, 2 => plain "IM" [lit "1"]
  | 6, 3 => plain "IM" [lit "2"]
  | 7, 0 => plain "LD" [lit "I", accumulator]
  | 7, 1 => plain "LD" [lit "R", accumulator]
  | 7, 2 => plain "LD" [accumulator, lit "I"]
  | 7, 3 => plain "LD" [accumulator, lit "R"]
  | 7, 4 => plain "RRD" []
  | 7, 5 => plain "RLD" []
  | _, _ => .undefined

/-- The block operations by column: once up, once down, repeated up, repeated down. -/
def blockNames : List (List String) :=
  [["LDI", "LDD", "LDIR", "LDDR"], ["CPI", "CPD", "CPIR", "CPDR"], ["INI", "IND", "INIR", "INDR"],
    ["OUTI", "OUTD", "OTIR", "OTDR"]]

/-- The form of an opcode of the extended page. -/
def extendedForm (opcode : UInt8) : Form :=
  let row := opcode.toNat / 8 % 8
  let column := opcode.toNat % 8
  match opcode.toNat / 64 with
  | 1 => extendedQuarter row column
  | 2 =>
    if 4 ≤ row ∧ column < 4 then .operation (.block (blockNames.getD column [])) [] else .undefined
  | _ => .undefined

/-- The form of an opcode of a page. -/
def Page.form : Page → UInt8 → Form
  | bits => bitsForm
  | extended => extendedForm

end Disassembly.Z80
