import Disassembly.PCode.Jump
import Disassembly.PCode.Table

/-! # Reading p-code instructions

An instruction is read parameter by parameter. A `Reading` is what has been read so far: how many
bytes, the mnemonic and the operands, and the mark and the events that jumps bring about. Each
parameter extends it. -/

namespace Disassembly.PCode

/-- An instruction that has been read in part. -/
structure Reading where
  length : Nat
  mark : Int
  mnemonic : String
  operands : List Operand := []
  events : List Event := []
  deriving DecidableEq, Repr

namespace Reading

/-- The reading with more bytes and operands. -/
def extend (r : Reading) (n : Nat) (operands : List Operand) : Reading :=
  { r with length := r.length + n, operands := r.operands ++ operands }

/-- The reading after a jump by a distance. -/
def jumped (r : Reading) (m : Image) (distance : Int) : Reading :=
  { r with
    mark := markAfter r.mark distance
    events := r.events ++ jumpEvents m r.mark distance }

/-- An operand that is a number. -/
def decimal (n : Nat) : Operand := .text n.repr

/-- An operand that is an address. -/
def placeOf (a : Address) : Operand := .bare (Address.dollarWord a) a

/-- The first place, from `length` bytes ahead of a cursor on, with an even address. -/
def aligned (c : Cursor) (length : Nat) : Nat := length + (c.address.toNat + length) % 2

/-- The characters of the `n` bytes from a place on, one for each byte. -/
def characters (s : ByteStream) (k n : Nat) : List Char :=
  ((s.drop k).take n).map fun b => Char.ofNat b.toNat

/-- Reads a big number. -/
def big (c : Cursor) (r : Reading) : Reading :=
  let (value, n) := bigValue (c.ahead r.length) (c.ahead (r.length + 1))
  r.extend n [decimal value]

/-- Reads the type of a comparison. -/
def comparison (c : Cursor) (r : Reading) : Reading :=
  let tag := c.ahead r.length
  let r := { r with mnemonic := r.mnemonic ++ typeSuffix tag }.extend 1 []
  if isSized tag then r.big c else r

/-- Reads the number of a standard procedure. -/
def standardCall (c : Cursor) (r : Reading) : Reading :=
  let number := c.ahead r.length
  match standardProcedure? number with
  | some name => { r with mnemonic := name }.extend 1 []
  | none => r.extend 1 [decimal number.toNat]

/-- Reads a count and a block of words at an even address. -/
def constants (c : Cursor) (r : Reading) : Reading :=
  let count := (c.ahead r.length).toNat
  let start := aligned c (r.length + 1)
  { r with
    length := start + 2 * count
    operands := r.operands ++ decimal count ::
      (List.range count).map fun i => decimal (c.ahead.word (start + 2 * i)).toNat }

/-- Reads a count and as many characters, shown between single quotes. -/
def quoted (c : Cursor) (r : Reading) : Reading :=
  let count := (c.ahead r.length).toNat
  let text := String.ofList (characters c.ahead (r.length + 1) count)
  r.extend (1 + count) [.text ("'" ++ text ++ "'")]

/-- The number of cases from `low` to `high`. -/
def caseCount (low high : UInt16) : Nat := high.toNat + 1 - low.toNat

/-- Reads the bounds of a case jump at an even address, the jump past its table, and the table. -/
def caseJump (c : Cursor) (r : Reading) : Reading :=
  let start := aligned c r.length
  let low := c.ahead.word start
  let high := c.ahead.word (start + 2)
  let distance := signed (c.ahead (start + 5))
  let past := jumpTarget c.image (c.address + UInt16.ofNat (start + 4)) distance
  let table := start + 6
  let length := table + 2 * caseCount low high
  let r := r.jumped c.image distance
  { r with
    length
    operands := r.operands ++
      .text ("Range " ++ low.toNat.repr ++ ".." ++ high.toNat.repr) ::
      .text ("UJP " ++ Address.dollarWord past) ::
      (List.range (caseCount low high)).map fun i => placeOf (selfRelative c (table + 2 * i))
    events := r.events ++
      if c.image.size < c.offset + length then
        [.casesPastEnd c.address low high (c.offset + length) c.image.size]
      else [] }

/-- Reads a parameter. -/
def read (c : Cursor) (r : Reading) : Param → Reading
  | .byte | .small => r.extend 1 [decimal (c.ahead r.length).toNat]
  | .jump =>
    let distance := signed (c.ahead r.length)
    (r.jumped c.image distance).extend 1 [placeOf (jumpTarget c.image c.address distance)]
  | .big => r.big c
  | .word => r.extend 2 [decimal (c.ahead.word r.length).toNat]
  | .comparison => r.comparison c
  | .standardCall => r.standardCall c
  | .constants => r.constants c
  | .packedArray | .string => r.quoted c
  | .caseJump => r.caseJump c

/-- Adds the value that the opcode itself stands for. -/
def implied (r : Reading) (value : Option Nat) : Reading :=
  r.extend 0 (value.toList.map decimal)

/-- The instruction that was read at a cursor. -/
def instruction (r : Reading) (c : Cursor) : Instruction :=
  { address := c.address
    code := c.ahead.take r.length
    mnemonic := r.mnemonic
    operands := r.operands }

end Reading

/-- Reads a word of the jump table. -/
def readSlot (c : Cursor) : Reading :=
  { length := 2
    mark := c.mark
    mnemonic := "J/T"
    operands := [Reading.placeOf (selfRelative c 0)] }

/-- Reads an operation. -/
def readOperation (c : Cursor) : Reading :=
  let e := entry (c.ahead 0)
  let start : Reading := { length := 1, mark := c.mark, mnemonic := e.mnemonic }
  (e.params.foldl (Reading.read c) start).implied e.implied

/-- Reads the instruction at a cursor. -/
def read (c : Cursor) : Reading := if inTable c then readSlot c else readOperation c

/-! ### Reading moves forward -/

namespace Reading

theorem length_le_big (c : Cursor) (r : Reading) : r.length ≤ (r.big c).length := by
  simp [big, extend]

theorem length_le_read (c : Cursor) (r : Reading) (p : Param) :
    r.length ≤ (r.read c p).length := by
  cases p with
  | byte | small | jump | word | packedArray | string => simp [read, quoted, extend, jumped]
  | big => exact r.length_le_big c
  | comparison =>
    have h := ({ r with mnemonic := r.mnemonic ++ typeSuffix (c.ahead r.length) }.extend 1
      []).length_le_big c
    simp only [extend] at h
    simp only [read, comparison]
    split
    · simp only [extend]; omega
    · simp [extend]
  | standardCall =>
    simp only [read, standardCall]
    split <;> simp [extend]
  | constants => simp only [read, constants, aligned]; omega
  | caseJump => simp only [read, caseJump, aligned]; omega

theorem length_le_foldl_read (c : Cursor) : ∀ (ps : List Param) (r : Reading),
    r.length ≤ (ps.foldl (read c) r).length
  | [], _ => Nat.le_refl _
  | p :: ps, r => Nat.le_trans (r.length_le_read c p) (length_le_foldl_read c ps (r.read c p))

end Reading

theorem length_read_pos (c : Cursor) : 0 < (read c).length := by
  unfold read
  split
  · exact Nat.zero_lt_two
  · have h := Reading.length_le_foldl_read c (entry (c.ahead 0)).params
      { length := 1, mark := c.mark, mnemonic := (entry (c.ahead 0)).mnemonic }
    simp only [readOperation, Reading.implied, Reading.extend]
    simp only at h
    omega

end Disassembly.PCode
