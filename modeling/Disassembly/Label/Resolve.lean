import Disassembly.Instruction
import Disassembly.Label.Map

/-! # Names for the addresses a listing refers to

Every address that an instruction refers to and that lies in the window of the listing gets a name.
The window is measured from its base with wrapping, so it may run past the last address. -/

namespace Disassembly.LabelMap

/-- Whether an address lies within `length` bytes from `base` on. -/
def inWindow (base : Address) (length : Nat) (a : Address) : Bool := (a - base).toNat < length

/-- The addresses in the window that the instructions refer to. -/
def referenced (instructions : List Instruction) (base : Address) (length : Nat) : List Address :=
  (instructions.filterMap Instruction.target).filter (inWindow base length)

/-- The names of `seed`, and a name for each address in the window that an instruction refers to. -/
def resolve (instructions : List Instruction) (base : Address) (length : Nat) (seed : LabelMap) :
    LabelMap :=
  seed.recordAll ((referenced instructions base length).map fun a => (a, a.autoName))

end Disassembly.LabelMap
