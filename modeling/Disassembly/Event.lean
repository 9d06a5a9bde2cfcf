import Disassembly.Architecture

/-! # Events

What a run reports while it goes on, besides its result. -/

namespace Disassembly

/-- The instruction set that code with calls into SWEET16 is in. -/
inductive Dialect where
  | mos6502
  | sweet16
  deriving DecidableEq, Repr

/-- The name of the instruction set. -/
def Dialect.name : Dialect → String
  | mos6502 => "Mos6502"
  | sweet16 => "Sweet16"

/-- How much an event matters. -/
inductive Level where
  | debug
  | trace
  deriving DecidableEq, Repr

/-- Something that happened during a run. -/
inductive Event where
  /-- A run started on `size` bytes, some of them skipped, with names from the library. -/
  | started (size : Nat) (architecture : Architecture) (start : Address) (skipped seeded : Nat)
  /-- A run ended. -/
  | finished (instructions labels : Nat)
  /-- Decoding went over to another instruction set. -/
  | switched (dialect : Dialect) (address : Address)
  /-- The jump table of a procedure turned out to start earlier. -/
  | tableMoved (start : Int)
  /-- The table of a case jump reaches past the end of the input. -/
  | casesPastEnd (address : Address) (low high : UInt16) (tableEnd size : Nat)
  deriving DecidableEq, Repr

namespace Event

/-- How much the event matters. -/
def level : Event → Level
  | tableMoved _ => .trace
  | _ => .debug

/-- The wording of an event. -/
def message : Event → String
  | started size architecture start skipped seeded =>
    "disassembling " ++ size.repr ++ " bytes as " ++ architecture.name ++ " at "
      ++ Address.dollarWord start ++ " (" ++ skipped.repr ++ " skipped, " ++ seeded.repr
      ++ " seeded labels)"
  | finished instructions labels =>
    "decoded " ++ instructions.repr ++ " instructions, " ++ labels.repr ++ " labels"
  | switched dialect address =>
    "switching to " ++ dialect.name ++ " at " ++ Address.dollarWord address
  | tableMoved start => "p-code jump table now starts at offset " ++ start.repr
  | casesPastEnd address low high tableEnd size =>
    "XJP at " ++ Address.dollarWord address ++ " case table " ++ low.toNat.repr ++ ".."
      ++ high.toNat.repr ++ " ends at offset " ++ tableEnd.repr ++ ", past the " ++ size.repr
      ++ " byte input"

end Event

end Disassembly
