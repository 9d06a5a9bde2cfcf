import Disassembly.Instruction

/-! # Instruction table of p-code

An opcode below 128 is the constant it stands for. From 128 to 215 an opcode names an operation with
parameters, read in order from the bytes behind it. From 216 on it names one of three short forms
with the value it stands for. -/

namespace Disassembly.PCode

/-- What is read behind an opcode. -/
inductive Param where
  /-- A byte. -/
  | byte
  /-- The distance of a jump: forward, or, if it is negative, through the jump table. -/
  | jump
  /-- A byte that is meant to be below 128. -/
  | small
  /-- A number below 32768 in one byte or two. -/
  | big
  /-- A word. -/
  | word
  /-- The type of the things compared, with a size for arrays of bytes and words. -/
  | comparison
  /-- The number of a standard procedure. -/
  | standardCall
  /-- A count, and after it as many words at an even address. -/
  | constants
  /-- A count, and after it as many packed bytes. -/
  | packedArray
  /-- A count, and after it as many characters. -/
  | string
  /-- The bounds of a case jump at an even address, a jump past its table, and the table. -/
  | caseJump
  deriving DecidableEq, Repr

/-- An operation with its parameters. -/
structure Operation where
  mnemonic : String
  params : List Param
  deriving DecidableEq, Repr

/-- The operations from opcode 128 on. -/
def operations : List Operation :=
  [⟨"ABI", []⟩, ⟨"ABR", []⟩, ⟨"ADI", []⟩, ⟨"ADR", []⟩, ⟨"LAND", []⟩, ⟨"DIF", []⟩, ⟨"DVI", []⟩,
    ⟨"DVR", []⟩, ⟨"CHK", []⟩, ⟨"FLO", []⟩, ⟨"FLT", []⟩, ⟨"INN", []⟩, ⟨"INT", []⟩, ⟨"LOR", []⟩,
    ⟨"MODI", []⟩, ⟨"MPI", []⟩, ⟨"MPR", []⟩, ⟨"NGI", []⟩, ⟨"NGR", []⟩, ⟨"LNOT", []⟩, ⟨"SRS", []⟩,
    ⟨"SBI", []⟩, ⟨"SBR", []⟩, ⟨"SGS", []⟩, ⟨"SQI", []⟩, ⟨"SQR", []⟩, ⟨"STO", []⟩, ⟨"IXS", []⟩,
    ⟨"UNI", []⟩, ⟨"LDE", [.byte, .big]⟩, ⟨"CSP", [.standardCall]⟩, ⟨"LDCN", []⟩,
    ⟨"ADJ", [.byte]⟩, ⟨"FJP", [.jump]⟩, ⟨"INC", [.big]⟩, ⟨"IND", [.big]⟩, ⟨"IXA", [.big]⟩,
    ⟨"LAO", [.big]⟩, ⟨"LSA", [.string]⟩, ⟨"LAE", [.byte, .big]⟩, ⟨"MOV", [.big]⟩,
    ⟨"LDO", [.big]⟩, ⟨"SAS", [.byte]⟩, ⟨"SRO", [.big]⟩, ⟨"XJP", [.caseJump]⟩, ⟨"RNP", [.small]⟩,
    ⟨"CIP", [.byte]⟩, ⟨"EQU", [.comparison]⟩, ⟨"GEQ", [.comparison]⟩, ⟨"GRT", [.comparison]⟩,
    ⟨"LDA", [.small, .big]⟩, ⟨"LDC", [.constants]⟩, ⟨"LEQ", [.comparison]⟩,
    ⟨"LES", [.comparison]⟩, ⟨"LOD", [.small, .big]⟩, ⟨"NEQ", [.comparison]⟩,
    ⟨"STR", [.small, .big]⟩, ⟨"UJP", [.jump]⟩, ⟨"LDP", []⟩, ⟨"STP", []⟩, ⟨"LDM", [.byte]⟩,
    ⟨"STM", [.byte]⟩, ⟨"LDB", []⟩, ⟨"STB", []⟩, ⟨"IXP", [.byte, .byte]⟩, ⟨"RBP", [.small]⟩,
    ⟨"CBP", [.byte]⟩, ⟨"EQUI", []⟩, ⟨"GEQI", []⟩, ⟨"GRTI", []⟩, ⟨"LLA", [.big]⟩,
    ⟨"LDCI", [.word]⟩, ⟨"LEQI", []⟩, ⟨"LESI", []⟩, ⟨"LDL", [.big]⟩, ⟨"NEWI", []⟩,
    ⟨"STL", [.big]⟩, ⟨"CXP", [.byte, .byte]⟩, ⟨"CLP", [.byte]⟩, ⟨"CGP", [.byte]⟩,
    ⟨"LPA", [.packedArray]⟩, ⟨"STE", [.byte, .big]⟩, ⟨undefinedMnemonic, []⟩, ⟨"EFJ", [.jump]⟩,
    ⟨"NFJ", [.jump]⟩, ⟨"BPT", [.big]⟩, ⟨"XIT", []⟩, ⟨"NOP", []⟩]

/-- What the table says of an opcode. -/
structure Entry where
  mnemonic : String
  /-- The value that the opcode itself stands for. -/
  implied : Option Nat := none
  params : List Param := []
  deriving DecidableEq, Repr

/-- The entry of an opcode. -/
def entry (opcode : UInt8) : Entry :=
  let n := opcode.toNat
  if n < 128 then { mnemonic := "SLDC", implied := some n }
  else if n < 216 then
    let op := operations.getD (n - 128) ⟨undefinedMnemonic, []⟩
    { mnemonic := op.mnemonic, params := op.params }
  else if n < 232 then { mnemonic := "SLDL", implied := some (n - 215) }
  else if n < 248 then { mnemonic := "SLDO", implied := some (n - 231) }
  else { mnemonic := "SIND", implied := some (n - 248) }

/-- Whether an entry is that of an operation. -/
def Entry.isDefined (e : Entry) : Bool := e.mnemonic != undefinedMnemonic

/-- What the type of the things compared adds to the mnemonic of a comparison. -/
def typeSuffix (tag : UInt8) : String :=
  match tag.toNat with
  | 2 => "REAL"
  | 4 => "STR"
  | 6 => "BOOL"
  | 8 => "POWR"
  | 10 => "BYT"
  | 12 => "WORD"
  | _ => ""

/-- Whether a comparison of the type has a size. -/
def isSized (tag : UInt8) : Bool := tag == 10 || tag == 12

/-- The standard procedures from number one on. -/
def standardProcedures : List String :=
  ["NEW", "MVL", "MVR", "EXIT", "IDS", "TRS", "TIM", "FLC", "SCN", "TNC", "RND", "MRK", "RLS",
    "POT"]

/-- The standard procedure of a number. -/
def standardProcedure? (number : UInt8) : Option String :=
  match number.toNat with
  | 0 => none
  | n + 1 => standardProcedures[n]?

/-- The value of a big number that starts with two given bytes, and the number of its bytes: a first
byte from 128 on has the seven high bits of fifteen. -/
def bigValue (first second : UInt8) : Nat × Nat :=
  if first.toNat < 128 then (first.toNat, 1)
  else ((first.toNat - 128) * 256 + second.toNat, 2)

end Disassembly.PCode
