import Disassembly.ByteStream
import Disassembly.Z80.Table

/-! # Reading Z80 instructions

The head of an instruction is its opcode with what comes before it: an index override, and the
opcode that leads to another page. The operand bytes follow the head. Under an override the operand
`(HL)` needs a displacement byte. It stands before the last opcode or operand byte if the opcode is
`36` or `CB`, and behind all other bytes otherwise; only the jump through an index register has
none. -/

namespace Disassembly.Z80

/-- What the opcode bytes of an instruction say. -/
structure Head where
  /-- The register that takes the place of `HL`. -/
  index : Option Index
  /-- The opcode of the main page. -/
  opcode : UInt8
  /-- The mnemonic. -/
  mnemonic : String
  /-- The operands. -/
  patterns : List Pattern
  /-- The number of bytes before the operand bytes. -/
  length : Nat
  deriving DecidableEq, Repr

namespace Head

/-- Whether a displacement byte follows the opcode of the main page at once. -/
def innerAt (index : Option Index) (opcode : UInt8) : Bool :=
  index.isSome && (opcode == 0x36 || opcode == 0xCB)

/-- The head whose main opcode is the last of its first `length` bytes. -/
def ofOpcode (s : ByteStream) (index : Option Index) (opcode : UInt8) (length : Nat) : Head :=
  let length := if innerAt index opcode then length + 1 else length
  match mainForm opcode with
  | .page p =>
    let form := p.form (s length)
    { index, opcode, mnemonic := form.mnemonic (s length), patterns := form.patterns (s length)
      length := length + 1 }
  | form => { index, opcode, mnemonic := form.mnemonic opcode, patterns := form.patterns opcode
              length }

/-- The head that leads a stream. A second override is taken as an opcode without operands. -/
def read (s : ByteStream) : Head :=
  match mainForm (s 0) with
  | .override i => ofOpcode s (some i) (s 1) 2
  | _ => ofOpcode s none (s 0) 1

/-- The number of operand bytes. -/
def dataLength (h : Head) : Nat := h.patterns.foldr (fun p n => p.size + n) 0

/-- Whether a displacement byte follows the opcode of the main page at once. -/
def isInner (h : Head) : Bool := innerAt h.index h.opcode

/-- Whether a displacement byte follows all other bytes. -/
def isTrailing (h : Head) : Bool :=
  h.index.isSome && !h.isInner && h.opcode != 0xE9 && h.patterns.contains .atHl

/-- The place of the displacement byte. -/
def displacementAt (h : Head) : Nat := if h.isInner then 2 else h.length + h.dataLength

/-- The number of bytes of the instruction. -/
def codeLength (h : Head) : Nat := h.length + h.dataLength + if h.isTrailing then 1 else 0

end Head

/-! ### Operands -/

/-- A byte that an index register points to with a displacement, `(IX+05H)`. -/
def Index.displaced (i : Index) (d : Int) : String :=
  "(" ++ i.name ++ (if d < 0 then "-" else "+") ++ Hex.byte (UInt8.ofNat d.natAbs) ++ "H)"

/-- A byte written with two digits before an `H`. -/
def byteText (b : UInt8) : String := Hex.byte b ++ "H"

/-- A word written with four digits before an `H`. -/
def wordText (w : UInt16) : String := Hex.word w ++ "H"

namespace Head

/-- The text in the place of `HL`. -/
def pairText (h : Head) : String :=
  match h.index with
  | none => "HL"
  | some i => i.name

/-- The text in the place of `(HL)`. -/
def memoryText (h : Head) (s : ByteStream) : String :=
  match h.index with
  | none => "(HL)"
  | some i =>
    if h.opcode = 0xE9 then "(" ++ i.name ++ ")" else i.displaced (signed (s h.displacementAt))

/-- The target of a relative jump at address `a`. -/
def jumpTarget (h : Head) (a : Address) (s : ByteStream) : Address :=
  (a + UInt16.ofNat (h.length + 1)).move (signed (s h.length))

/-- The operand of a pattern in an instruction at address `a`. -/
def operand (h : Head) (a : Address) (s : ByteStream) : Pattern → Operand
  | .fixed t => .text t
  | .hl => .text h.pairText
  | .atHl => .text (h.memoryText s)
  | .word => .text (wordText (s.word h.length))
  | .byte => .text (byteText (s h.length))
  | .address => .bare (wordText (s.word h.length)) (s.word h.length)
  | .atAddress => .bracketed (wordText (s.word h.length)) (s.word h.length)
  | .offset => .bare (wordText (h.jumpTarget a s)) (h.jumpTarget a s)
  | .device => .text ("(" ++ byteText (s h.length) ++ ")")

end Head

/-- The instruction at address `a` whose bytes lead the stream. -/
def decode (a : Address) (s : ByteStream) : Instruction :=
  let h := Head.read s
  { address := a
    code := s.take h.codeLength
    mnemonic := h.mnemonic
    operands := h.patterns.map (h.operand a s) }

theorem Head.length_ofOpcode_pos (s : ByteStream) (index : Option Index) (opcode : UInt8)
    {length : Nat} (h : 0 < length) : 0 < (ofOpcode s index opcode length).length := by
  unfold ofOpcode
  split <;> split <;> simp_all

theorem Head.length_read_pos (s : ByteStream) : 0 < (read s).length := by
  unfold read
  split <;> exact length_ofOpcode_pos _ _ _ (by decide)

theorem length_code_decode (a : Address) (s : ByteStream) :
    (decode a s).code.length = (Head.read s).codeLength := by
  simp [decode]

theorem length_code_decode_pos (a : Address) (s : ByteStream) : 0 < (decode a s).code.length := by
  have := Head.length_read_pos s
  rw [length_code_decode, Head.codeLength]
  omega

end Disassembly.Z80
