import Disassembly.Cursor
import Disassembly.Event
import Disassembly.Mos6502.Variant
import Disassembly.Sweet16

/-! # 6502 code with calls into SWEET16

A call of the interpreter's entry point puts SWEET16 code behind the call, and the instruction `RTN`
ends it. After each change a directive that names the new instruction set, and has no bytes, stands
ahead of the next instruction. -/

namespace Disassembly

/-- The state of the decoder: the instruction set it is in, and the address of the directive it
still owes, if any. The directive names the instruction set of the state. -/
structure Switching where
  dialect : Dialect := .mos6502
  pending : Option Address := none
  deriving DecidableEq, Repr

/-- The directive that a change to the instruction set is shown by. -/
def Dialect.directive (dialect : Dialect) (a : Address) : Instruction :=
  match dialect with
  | mos6502 => { address := a, mnemonic := ".6502" }
  | sweet16 => { address := a, mnemonic := ".SWEET16" }

namespace Dialect

/-- The other instruction set. -/
def other : Dialect → Dialect
  | mos6502 => sweet16
  | sweet16 => mos6502

/-- The instruction at address `a` whose bytes lead the stream, in one of the instruction sets. -/
def decode (dialect : Dialect) (a : Address) (s : ByteStream) : Instruction :=
  match dialect with
  | mos6502 => Mos6502.Variant.nmos.decode a s
  | sweet16 => Sweet16.decode a s

end Dialect

namespace Switching

/-- The entry point of the SWEET16 interpreter. -/
def entryPoint : Address := 0xF689

/-- Whether the code changes over to the other instruction set behind an instruction. -/
def isTrigger (dialect : Dialect) (i : Instruction) : Bool :=
  match dialect with
  | .mos6502 => i.mnemonic == "JSR" && i.target == some entryPoint
  | .sweet16 => i.mnemonic == "RTN"

/-- The address behind an instruction. -/
def addressBehind (i : Instruction) : Address := i.address + UInt16.ofNat i.code.length

/-- The state behind an instruction that was read in a state without a pending directive. -/
def behind (dialect : Dialect) (i : Instruction) : Switching :=
  if isTrigger dialect i then ⟨dialect.other, some (addressBehind i)⟩ else ⟨dialect, none⟩

/-- The next instruction: the pending directive, or else the one at address `a` whose bytes lead the
stream. -/
def decode (w : Switching) (a : Address) (s : ByteStream) : Instruction :=
  match w.pending with
  | some d => w.dialect.directive d
  | none => w.dialect.decode a s

/-- The state after the next instruction. -/
def next (w : Switching) (a : Address) (s : ByteStream) : Switching :=
  match w.pending with
  | some _ => { w with pending := none }
  | none => behind w.dialect (w.dialect.decode a s)

/-- What the next instruction is reported by: a change of the instruction set, if it brings one. -/
def events (w : Switching) (a : Address) (s : ByteStream) : List Event :=
  match w.pending, (w.next a s).pending with
  | none, some d => [.switched (w.next a s).dialect d]
  | _, _ => []

end Switching

end Disassembly
