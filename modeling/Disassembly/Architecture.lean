import Disassembly.Address
import Disassembly.Error
import Disassembly.Text.Blank

/-! # Architectures

The instruction sets that can be disassembled, their names, and the settings that a run uses when
the caller gives none. -/

namespace Disassembly

/-- An instruction set. -/
inductive Architecture where
  /-- The NMOS 6502 with its documented opcodes. -/
  | mos6502
  /-- The NMOS 6502 with all its opcodes. -/
  | undocumented6502
  /-- The CMOS 65C02. -/
  | cmos65C02
  /-- The SWEET16 interpreter. -/
  | sweet16
  /-- The NMOS 6502 with calls into the SWEET16 interpreter. -/
  | switching6502
  /-- The Z80. -/
  | z80
  /-- The p-code of Pascal procedures. -/
  | pcode
  deriving DecidableEq, Repr

/-- Settings for a run that the caller leaves open. -/
structure Defaults where
  /-- The usual load address. -/
  start : Address
  /-- The label groups asked for. -/
  groups : List String
  /-- The bytes shown in a row. -/
  bytesPerRow : Nat
  deriving DecidableEq, Repr

namespace Architecture

/-- All architectures. -/
def all : List Architecture :=
  [mos6502, undocumented6502, cmos65C02, sweet16, switching6502, z80, pcode]

/-- The name of an architecture. -/
def name : Architecture → String
  | mos6502 => "6502"
  | undocumented6502 => "6502X"
  | cmos65C02 => "65C02"
  | sweet16 => "SWEET16"
  | switching6502 => "6502S"
  | z80 => "Z80"
  | pcode => "PCODE"

/-- Other names, accepted beside the first one. -/
def aliases : Architecture → List String
  | sweet16 => ["SWEET-16"]
  | pcode => ["P-CODE"]
  | _ => []

/-- The architecture of a name in capitals. -/
def ofName? (s : String) : Option Architecture :=
  all.find? fun arch => arch.name == s || arch.aliases.contains s

/-- The architecture that a text names, with blanks around it and small letters allowed. -/
def parse (text : String) : Except Error Architecture :=
  match ofName? (String.ofList (Blank.trim text.toList)).toUpper with
  | some arch => .ok arch
  | none => .error (.unknownArchitecture text)

/-- The settings for a run that the caller leaves open. -/
def defaults : Architecture → Defaults
  | z80 => { start := 0x0100, groups := [], bytesPerRow := 5 }
  | pcode => { start := 0x0000, groups := [], bytesPerRow := 8 }
  | _ => { start := 0x0300, groups := ["All"], bytesPerRow := 3 }

end Architecture

end Disassembly
