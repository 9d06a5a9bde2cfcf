import Disassembly.Instruction

/-! # Instruction forms of the Z80

A form is what a family of opcodes has in common: a mnemonic and operands, where the bits of the
opcode choose registers, conditions and the like. `Form.mnemonic` and `Form.patterns` make the
choice for one opcode; what is then left open in a pattern is read from the bytes behind the opcode.
-/

namespace Disassembly.Z80

/-- An index register, which can take the place of `HL`. -/
inductive Index where
  | ix
  | iy
  deriving DecidableEq, Repr

/-- The name of an index register. -/
def Index.name : Index → String
  | ix => "IX"
  | iy => "IY"

/-- A page of further opcodes, behind an opcode of the main page. -/
inductive Page where
  /-- Rotations and single bits. -/
  | bits
  /-- Block instructions and other additions. -/
  | extended
  deriving DecidableEq, Repr

/-- The opcode of the main page that leads to the page. -/
def Page.name : Page → String
  | bits => "CB"
  | extended => "ED"

/-! ### Operands -/

/-- An operand of an opcode. -/
inductive Pattern where
  /-- A text. -/
  | fixed (text : String)
  /-- The register pair `HL` or an index register in its place. -/
  | hl
  /-- The byte that `HL` points to, or the indexed byte in its place. -/
  | atHl
  /-- A constant word. -/
  | word
  /-- A constant byte. -/
  | byte
  /-- An address. -/
  | address
  /-- The memory at an address. -/
  | atAddress
  /-- A jump target by its distance from the end of the instruction. -/
  | offset
  /-- The number of an input or output device. -/
  | device
  deriving DecidableEq, Repr

namespace Pattern

/-- The pattern as tables of the instruction set spell it. -/
def spelling : Pattern → String
  | fixed t => t
  | hl => "HL"
  | atHl => "(HL)"
  | word | byte => "data"
  | address => "add"
  | atAddress => "(add)"
  | offset => "offset"
  | device => "(port)"

/-- The number of bytes behind the opcode that the pattern is read from. -/
def size : Pattern → Nat
  | fixed _ | hl | atHl => 0
  | byte | offset | device => 1
  | word | address | atAddress => 2

end Pattern

/-- An operand of a form. -/
inductive Part where
  /-- The same for each opcode of the form. -/
  | always (pattern : Pattern)
  /-- The register of bits 3 to 5. -/
  | destination
  /-- The register of bits 0 to 2. -/
  | source
  /-- The pair of bits 4 and 5, the last one `SP`. -/
  | pair
  /-- The pair of bits 4 and 5, the last one `AF`. -/
  | stackPair
  /-- The memory that the pair of bit 4 points to. -/
  | pointerPair
  /-- The condition of bits 3 to 5. -/
  | condition
  /-- The condition of bits 3 and 4. -/
  | branchCondition
  /-- The restart address of bits 3 to 5. -/
  | restart
  /-- The number of a bit in bits 3 to 5. -/
  | bit
  deriving DecidableEq, Repr

/-- The registers by number; the sixth is the byte that `HL` points to. -/
def registers : List Pattern :=
  [.fixed "B", .fixed "C", .fixed "D", .fixed "E", .fixed "H", .fixed "L", .atHl, .fixed "A"]

/-- The conditions by number. -/
def conditions : List String := ["NZ", "Z", "NC", "C", "PO", "PE", "P", "M"]

/-- The register of a number. -/
def registerOf (n : Nat) : Pattern := registers.getD n .atHl

/-- The condition of a number. -/
def conditionOf (n : Nat) : Pattern := .fixed (conditions.getD n "")

/-- The operand of one opcode of the form. -/
def Part.pattern (opcode : UInt8) : Part → Pattern
  | always p => p
  | destination => registerOf (opcode.toNat / 8 % 8)
  | source => registerOf (opcode.toNat % 8)
  | pair => [.fixed "BC", .fixed "DE", .hl].getD (opcode.toNat / 16 % 4) (.fixed "SP")
  | stackPair => [.fixed "BC", .fixed "DE", .hl].getD (opcode.toNat / 16 % 4) (.fixed "AF")
  | pointerPair => .fixed (if opcode.toNat / 16 % 2 = 0 then "(BC)" else "(DE)")
  | condition => conditionOf (opcode.toNat / 8 % 8)
  | branchCondition => conditionOf (opcode.toNat / 8 % 4)
  | restart => .fixed (Hex.byte (UInt8.ofNat (opcode.toNat / 8 % 8 * 8)) ++ "H")
  | bit => .fixed (opcode.toNat / 8 % 8).repr

/-! ### Forms -/

/-- The mnemonics of a form. -/
inductive Name where
  /-- The same for each opcode of the form. -/
  | one (mnemonic : String)
  /-- The arithmetic operation of bits 3 to 5. -/
  | arithmetic
  /-- The block operation of bits 3 and 4. -/
  | block (mnemonics : List String)
  deriving DecidableEq, Repr

/-- The arithmetic operations by number. -/
def arithmeticNames : List String := ["ADD", "ADC", "SUB", "SBC", "AND", "XOR", "OR", "CP"]

/-- The mnemonic of one opcode of the form. -/
def Name.mnemonic (opcode : UInt8) : Name → String
  | one m => m
  | arithmetic => arithmeticNames.getD (opcode.toNat / 8 % 8) undefinedMnemonic
  | block ms => ms.getD (opcode.toNat / 8 % 4) undefinedMnemonic

/-- What a family of opcodes has in common. -/
inductive Form where
  /-- An instruction. -/
  | operation (name : Name) (parts : List Part)
  /-- The way to another page. -/
  | page (page : Page)
  /-- The choice of an index register for the instruction that follows. -/
  | override (index : Index)
  /-- No instruction. -/
  | undefined
  deriving DecidableEq, Repr

namespace Form

/-- The mnemonic of one opcode of the form. -/
def mnemonic (opcode : UInt8) : Form → String
  | operation n _ => n.mnemonic opcode
  | page p => p.name
  | override i => i.name
  | undefined => undefinedMnemonic

/-- The operands of one opcode of the form. -/
def patterns (opcode : UInt8) : Form → List Pattern
  | operation _ parts => parts.map (Part.pattern opcode)
  | page _ | override _ | undefined => []

/-- Whether the form is an instruction, or a byte that leads to one. -/
def isDefined (f : Form) : Bool := f != undefined

end Form

/-! ### Fields

The fields of a form are the choices that its opcode bits make and the bytes that follow the opcode.
-/

/-- A field of an encoding. -/
inductive Field where
  | pointerPair
  | pair
  | stackPair
  | wordLow
  | wordHigh
  | destination
  | source
  | byte
  | offset
  | addressLow
  | addressHigh
  | condition
  | branchCondition
  | device
  | arithmetic
  | restart
  | page
  | override
  | block
  | bit
  deriving DecidableEq, Repr

/-- The fields in the order in which they are listed. -/
def Field.all : List Field :=
  [pointerPair, pair, stackPair, wordLow, wordHigh, destination, source, byte, offset, addressLow,
    addressHigh, condition, branchCondition, device, arithmetic, restart, page, override, block,
    bit]

/-- The fields of a pattern. -/
def Pattern.fields : Pattern → List Field
  | fixed _ | hl | atHl => []
  | word => [.wordLow, .wordHigh]
  | byte => [.byte]
  | address | atAddress => [.addressLow, .addressHigh]
  | offset => [.offset]
  | device => [.device]

/-- The fields of an operand. -/
def Part.fields : Part → List Field
  | always p => p.fields
  | destination => [.destination]
  | source => [.source]
  | pair => [.pair]
  | stackPair => [.stackPair]
  | pointerPair => [.pointerPair]
  | condition => [.condition]
  | branchCondition => [.branchCondition]
  | restart => [.restart]
  | bit => [.bit]

/-- The fields of a mnemonic. -/
def Name.fields : Name → List Field
  | one _ => []
  | arithmetic => [.arithmetic]
  | block _ => [.block]

/-- The fields of a form, in the order in which they are listed. -/
def Form.fields (f : Form) : List Field :=
  let present := match f with
    | operation n parts => n.fields ++ parts.flatMap Part.fields
    | page _ => [.page]
    | override _ => [.override]
    | undefined => []
  Field.all.filter present.contains

end Disassembly.Z80
