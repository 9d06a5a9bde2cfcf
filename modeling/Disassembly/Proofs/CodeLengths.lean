import Disassembly.Proofs.CaseJumps
import Disassembly.Proofs.References

/-! # How long instructions get

A line of a listing has at most three bytes for the 6502 family and SWEET16, at most five for the
Z80, which is the number of bytes that a row shows, and at most 131080 for p-code, where a case jump
has a word for each of up to 65536 cases.

* `Z80.Head.codeLength_read_le`: the opcode bytes and what the operands need behind them, page by
  page;
* `PCode.length_read_le`: the most that each parameter is read from;
* `Decoder.length_code_instruction_le`: all architectures. -/

namespace Disassembly

/-! ### The Z80 -/

namespace Z80

/-- The number of bytes that operands need behind the opcode, where `(HL)` may need a displacement.
-/
def room (ps : List Pattern) : Nat :=
  ps.foldr (fun p n => p.size + n) 0 + if ps.contains .atHl then 1 else 0

set_option maxRecDepth 2000 in
theorem room_mainForm : ∀ b, room ((mainForm b).patterns b) ≤ 2 := forall_byte (by decide)

set_option maxRecDepth 2000 in
theorem room_bitsForm : ∀ b, room ((bitsForm b).patterns b) ≤ 1 := forall_byte (by decide)

set_option maxRecDepth 2000 in
theorem room_extendedForm : ∀ b, room ((extendedForm b).patterns b) ≤ 2 := forall_byte (by decide)

namespace Head

theorem codeLength_le (h : Head) : h.codeLength ≤ h.length + room h.patterns := by
  have htrail : h.isTrailing = true → h.patterns.contains .atHl = true := by
    unfold isTrailing
    rw [Bool.and_eq_true]
    exact And.right
  unfold codeLength room dataLength
  by_cases ht : h.isTrailing = true
  · rw [if_pos ht, if_pos (htrail ht)]
    omega
  · rw [if_neg ht]
    omega

/-- Behind the first bytes of a head there are at most three more: a displacement, an opcode of the
page of bits and another displacement if it were to follow, or an opcode of the extended page and a
word. -/
theorem codeLength_ofOpcode_le (s : ByteStream) (index : Option Index) (opcode : UInt8) (n : Nat) :
    (ofOpcode s index opcode n).codeLength ≤ n + 3 := by
  refine Nat.le_trans (codeLength_le _) ?_
  have hmain := room_mainForm opcode
  have hstart : (if innerAt index opcode then n + 1 else n) ≤ n + 1 := by split <;> omega
  cases hf : mainForm opcode with
  | page p =>
    obtain rfl := eq_opcode_of_mainForm_page p _ hf
    cases p with
    | bits =>
      have hbits := room_bitsForm (s (if innerAt index Page.bits.opcode then n + 1 else n))
      simp only [ofOpcode, hf, Page.form]
      omega
    | extended =>
      have hinner : innerAt index Page.extended.opcode = false := by cases index <;> rfl
      have hextended := room_extendedForm (s n)
      simp only [ofOpcode, hf, Page.form, hinner]
      rw [if_neg (by decide)]
      omega
  | operation | override | undefined =>
    rw [hf] at hmain
    simp only [ofOpcode, hf]
    omega

theorem codeLength_read_le (s : ByteStream) : (read s).codeLength ≤ 5 := by
  unfold read
  split
  · exact codeLength_ofOpcode_le _ _ _ _
  · exact Nat.le_trans (codeLength_ofOpcode_le _ _ _ _) (by decide)

example : (read (.ofList [0xDD, 0xED, 0x43, 0x34, 0x12])).codeLength = 5 := by decide

end Head

end Z80

/-! ### p-code -/

namespace PCode

/-- The largest number of bytes that a parameter is read from. -/
def Param.reach : Param → Nat
  | byte | small | jump | standardCall => 1
  | big | word => 2
  | comparison => 3
  | packedArray | string => 256
  | constants => 512
  | caseJump => 131079

/-- The largest number of bytes that parameters are read from. -/
def reach (ps : List Param) : Nat := ps.foldr (fun p n => p.reach + n) 0

namespace Reading

variable (c : Cursor) (r : Reading)

theorem length_big_le : (r.big c).length ≤ r.length + 2 := by
  have hbig : (bigValue (c.ahead r.length) (c.ahead (r.length + 1))).2 ≤ 2 := by
    unfold bigValue
    split
    · exact Nat.le_succ 1
    · exact Nat.le_refl 2
  exact Nat.add_le_add_left hbig r.length

theorem length_read_le (p : Param) : (r.read c p).length ≤ r.length + p.reach := by
  cases p with
  | byte | small | word | jump => exact Nat.le_refl _
  | big => exact length_big_le c r
  | comparison =>
    have hbig := length_big_le c
      ({ r with mnemonic := r.mnemonic ++ typeSuffix (c.ahead r.length) }.extend 1 [])
    have hone : ({ r with mnemonic := r.mnemonic ++ typeSuffix (c.ahead r.length) }.extend 1
        []).length = r.length + 1 := rfl
    simp only [read, comparison, Param.reach]
    split <;> omega
  | standardCall =>
    simp only [read, standardCall]
    split <;> exact Nat.le_refl _
  | packedArray | string =>
    have hcount := (c.ahead r.length).toNat_lt
    simp only [read, quoted, extend, Param.reach]
    omega
  | constants =>
    have hcount := (c.ahead r.length).toNat_lt
    simp only [read, constants, aligned, Param.reach]
    omega
  | caseJump =>
    have hhigh := (c.ahead.word (aligned c r.length + 2)).toNat_lt
    simp only [read, caseJump, caseCount, aligned, Param.reach] at hhigh ⊢
    omega

theorem length_foldl_read_le : ∀ (ps : List Param) (r : Reading),
    (ps.foldl (read c) r).length ≤ r.length + reach ps
  | [], _ => Nat.le_refl _
  | p :: ps, r => by
    have hp := length_read_le c r p
    have hps := length_foldl_read_le ps (r.read c p)
    rw [List.foldl_cons]
    simp only [reach, List.foldr_cons] at hps ⊢
    omega

end Reading

set_option maxRecDepth 2000 in
theorem reach_entry : ∀ b, reach (entry b).params ≤ 131079 := forall_byte (by decide)

theorem length_read_le (c : Cursor) : (read c).length ≤ 131080 := by
  unfold read
  split
  · exact (by decide : 2 ≤ 131080)
  · have hparams := Reading.length_foldl_read_le c (entry (c.ahead 0)).params
      { length := 1, mark := c.mark, mnemonic := (entry (c.ahead 0)).mnemonic }
    have hreach := reach_entry (c.ahead 0)
    simp only [readOperation, Reading.implied, Reading.extend]
    simp only at hparams
    omega

-- The cases from 0 to 65535, at an even address.
example :
    let c : Cursor :=
      { image := { base := 0x0000, bytes := #[0xAC, 0x00, 0x00, 0x00, 0xFF, 0xFF] } }
    (read c).length = 131080 := by decide

end PCode

/-! ### All architectures -/

theorem Dialect.length_code_decode_le (dialect : Dialect) (a : Address) (s : ByteStream) :
    (dialect.decode a s).code.length ≤ 3 := by
  cases dialect with
  | mos6502 =>
    show (Mos6502.Variant.nmos.decode a s).code.length ≤ 3
    rw [Mos6502.Variant.length_code_decode]
    exact Mos6502.Mode.length_le _
  | sweet16 =>
    show (Sweet16.decode a s).code.length ≤ 3
    rw [Sweet16.length_code_decode]
    exact Sweet16.Shape.length_le _

theorem Switching.length_code_decode_le (w : Switching) (a : Address) (s : ByteStream) :
    (w.decode a s).code.length ≤ 3 := by
  unfold decode
  split
  · cases w.dialect <;> exact Nat.zero_le 3
  · exact w.dialect.length_code_decode_le a s

/-- The decoder is that of an architecture, in any of its states. -/
def Architecture.Decodes (arch : Architecture) (d : Decoder) : Prop :=
  d = arch.decoder ∨ arch = .switching6502 ∧ ∃ w, d = .switching w

namespace Decoder

/-- **No line is longer than a row**, outside p-code. -/
theorem length_code_instruction_le {arch : Architecture} {d : Decoder} (h : arch.Decodes d)
    (c : Cursor) : (d.instruction c).code.length ≤
      if arch = .pcode then 131080 else arch.defaults.bytesPerRow := by
  rcases h with rfl | ⟨rfl, w, rfl⟩
  · cases arch with
    | mos6502 | undocumented6502 | cmos65C02 =>
      show (Mos6502.Variant.decode _ c.address c.ahead).code.length ≤ 3
      rw [Mos6502.Variant.length_code_decode]
      exact Mos6502.Mode.length_le _
    | sweet16 =>
      show (Sweet16.decode c.address c.ahead).code.length ≤ 3
      rw [Sweet16.length_code_decode]
      exact Sweet16.Shape.length_le _
    | switching6502 => exact Switching.length_code_decode_le _ c.address c.ahead
    | z80 =>
      show (Z80.decode c.address c.ahead).code.length ≤ 5
      rw [Z80.length_code_decode]
      exact Z80.Head.codeLength_read_le _
    | pcode =>
      show ((PCode.read c).instruction c).code.length ≤ 131080
      rw [PCode.Reading.instruction, ByteStream.length_take]
      exact PCode.length_read_le c
  · exact w.length_code_decode_le c.address c.ahead

end Decoder

end Disassembly
