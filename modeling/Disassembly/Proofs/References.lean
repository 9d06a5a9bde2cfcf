import Disassembly.Proofs.JumpTargets
import Disassembly.Proofs.Prefixes
import Disassembly.Proofs.Segments
import Mathlib.Data.List.Forall2

/-! # The addresses that operands refer to

Outside p-code the address that an operand carries can be read off the code of its instruction, once
it is known what kind of operand it is: a `Reference` says where in the code the address stands, and
`Reference.Gives` what address this is, as a number. The references of an instruction are written
down apart from the decoders, from its opcode bytes.

* `Gives.of_word`, `Gives.of_byte`, `Gives.of_distance`: the address that is read right behind the
  first bytes of an instruction is the one that its last bytes say;
* `gives_operands`, `refers_decode`: one instruction of each instruction set;
* `Z80.patternsOf_code`: the operands of a Z80 instruction from its opcode bytes. Its address is at
  the end of the code because no displacement byte comes behind it (`Z80.Head.patterns_read_data`);
* `Switching.refers_listing`: the decoder that switches, where the directives before a line tell the
  instruction set of the line. -/

namespace Disassembly

/-- What the code of an instruction says about the address of an operand. -/
inductive Reference where
  /-- Nothing: the operand has no address. -/
  | nothing
  /-- The last two bytes are the address, the low byte first. -/
  | word
  /-- The last byte is the address. -/
  | byte
  /-- The last byte is the distance of the address from the end of the instruction. -/
  | distance
  deriving DecidableEq, Repr

namespace Reference

/-- The address that the code of an instruction at address `a` gives to an operand. -/
inductive Gives (a : Address) : List UInt8 → Reference → Option Address → Prop
  | nothing (code : List UInt8) : Gives a code .nothing none
  | word (front : List UInt8) (low high : UInt8) {t : Address}
      (h : t.toNat = low.toNat + 256 * high.toNat) :
      Gives a (front ++ [low, high]) .word (some t)
  | byte (front : List UInt8) (b : UInt8) {t : Address} (h : t.toNat = b.toNat) :
      Gives a (front ++ [b]) .byte (some t)
  | distance (front : List UInt8) (b : UInt8) {t : Address}
      (h : (t.toNat : Int) = (a.toNat + (front ++ [b]).length + signed b) % 65536) :
      Gives a (front ++ [b]) .distance (some t)

end Reference

/-! ### Addresses read from a stream -/

theorem ByteStream.headD_take (s : ByteStream) {n : Nat} (h : 0 < n) :
    (s.take n).headD 0 = s 0 := by
  obtain ⟨k, rfl⟩ : ∃ k, n = k + 1 := ⟨n - 1, by omega⟩
  rw [Nat.add_comm k 1, take_add]
  rfl

namespace Reference

variable {a : Address} {s : ByteStream}

theorem Gives.of_word (n : Nat) : Gives a (s.take (n + 2)) .word (some (s.word n)) := by
  have htake : s.take (n + 2) = s.take n ++ [s n, s (n + 1)] := by
    rw [ByteStream.take_succ, ByteStream.take_succ, List.append_assoc]
    rfl
  rw [htake]
  exact .word _ _ _ (toNat_littleEndian _ _)

theorem Gives.of_byte (n : Nat) : Gives a (s.take (n + 1)) .byte (some (s n).toUInt16) := by
  rw [ByteStream.take_succ]
  exact .byte _ _ (UInt8.toNat_toUInt16 _)

theorem Gives.of_distance (n : Nat) :
    Gives a (s.take (n + 1)) .distance
      (some ((a + UInt16.ofNat (n + 1)).move (signed (s n)))) := by
  have hlen : (s.take n ++ [s n]).length = n + 1 := by
    rw [List.length_append, ByteStream.length_take]
    rfl
  have hsum : (a + UInt16.ofNat (n + 1)).toNat = (a.toNat + (n + 1)) % 65536 := by
    rw [UInt16.toNat_add, UInt16.toNat_ofNat']
    omega
  rw [ByteStream.take_succ]
  refine .distance _ _ ?_
  rw [Address.toNat_move, hlen, hsum]
  omega

theorem Gives.isSome_eq {code : List UInt8} {r : Reference} {t : Option Address}
    (h : Gives a code r t) : t.isSome = (r != .nothing) := by
  cases h <;> rfl

theorem countP_isSome_eq {code : List UInt8} {rs : List Reference} {ts : List (Option Address)}
    (h : List.Forall₂ (Gives a code) rs ts) :
    ts.countP Option.isSome = rs.countP (· != .nothing) := by
  induction h with
  | nil => rfl
  | cons hr _ ih => rw [List.countP_cons, List.countP_cons, ih, hr.isSome_eq]

end Reference

open Reference (Gives)
open ByteStream (ofList)

/-- The operands of an instruction carry the addresses that its code gives them, and at most one of
them carries an address. -/
structure Instruction.Refers (i : Instruction) (rs : List Reference) : Prop where
  addresses : List.Forall₂ (Gives i.address i.code) rs (i.operands.map Operand.address)
  single : (i.operands.filter fun o => o.address.isSome).length ≤ 1

theorem Instruction.Refers.of_gives {i : Instruction} {rs : List Reference}
    (h : List.Forall₂ (Gives i.address i.code) rs (i.operands.map Operand.address))
    (hone : rs.countP (· != .nothing) ≤ 1) : i.Refers rs := by
  refine ⟨h, ?_⟩
  rw [← Reference.countP_isSome_eq h, List.countP_map] at hone
  rwa [← List.countP_eq_length_filter]

/-! ### The 6502 family -/

namespace Mos6502

namespace Mode

/-- Whether an index register is shown behind the address. -/
def isIndexed : Mode → Bool
  | zeroPageX | zeroPageY | absoluteX | absoluteY | absoluteIndexedIndirect | indirectX
  | indirectY => true
  | _ => false

/-- The reference of the first operand: a branch has a distance, a constant byte is no address, and
otherwise all bytes behind the opcode are the address. -/
def reference (mode : Mode) : Reference :=
  if mode = relative then .distance
  else if mode = immediate then .nothing
  else if mode.length = 3 then .word
  else .byte

/-- The references of the operands of an instruction of the mode. -/
def references (mode : Mode) : List Reference :=
  if mode.length = 1 then []
  else mode.reference :: if mode.isIndexed then [.nothing] else []

theorem gives_operands (mode : Mode) (a : Address) (s : ByteStream) :
    List.Forall₂ (Gives a (s.take mode.length)) mode.references
      ((mode.operands a s).map Operand.address) := by
  cases mode with
  | implicit | accumulator | undefined1 => exact .nil
  | immediate => exact .cons (.nothing _) .nil
  | relative => exact .cons (.of_distance 1) .nil
  | zeroPage | zeroPageIndirect | undefined2 => exact .cons (.of_byte 1) .nil
  | zeroPageX | zeroPageY | indirectX | indirectY =>
    exact .cons (.of_byte 1) (.cons (.nothing _) .nil)
  | absolute | indirect | undefined3 => exact .cons (.of_word 1) .nil
  | absoluteX | absoluteY | absoluteIndexedIndirect =>
    exact .cons (.of_word 1) (.cons (.nothing _) .nil)

theorem countP_references_le (mode : Mode) : mode.references.countP (· != .nothing) ≤ 1 := by
  cases mode <;> decide

end Mode

/-- The references of the operands of an instruction with a given code. -/
def Variant.references (v : Variant) (code : List UInt8) : List Reference :=
  (v.entry (code.headD 0)).mode.references

theorem Variant.refers_decode (v : Variant) (a : Address) (s : ByteStream) :
    (v.decode a s).Refers (v.references (v.decode a s).code) := by
  have hhead : (v.decode a s).code.headD 0 = s 0 :=
    ByteStream.headD_take s (Mode.length_pos _)
  unfold references
  rw [hhead]
  exact .of_gives (Mode.gives_operands _ a s) (Mode.countP_references_le _)

end Mos6502

/-! ### SWEET16 -/

namespace Sweet16

/-- The references of the operands of an instruction of the shape: only a branch has an address. -/
def Shape.references : Shape → List Reference
  | constant => [.nothing, .nothing]
  | direct | indirect => [.nothing]
  | branch => [.distance]
  | implied => []

theorem Shape.gives_operands (shape : Shape) (a : Address) (s : ByteStream) :
    List.Forall₂ (Gives a (s.take shape.length)) shape.references
      ((shape.operands a s).map Operand.address) := by
  cases shape with
  | constant => exact .cons (.nothing _) (.cons (.nothing _) .nil)
  | direct | indirect => exact .cons (.nothing _) .nil
  | branch => exact .cons (.of_distance 1) .nil
  | implied => exact .nil

theorem Shape.countP_references_le (shape : Shape) :
    shape.references.countP (· != .nothing) ≤ 1 := by
  cases shape <;> decide

/-- The references of the operands of an instruction with a given code. -/
def references (code : List UInt8) : List Reference := (entry (code.headD 0)).shape.references

theorem refers_decode (a : Address) (s : ByteStream) :
    (decode a s).Refers (references (decode a s).code) := by
  have hhead : (decode a s).code.headD 0 = s 0 := ByteStream.headD_take s (Shape.length_pos _)
  unfold references
  rw [hhead]
  exact .of_gives (Shape.gives_operands _ a s) (Shape.countP_references_le _)

end Sweet16

/-! ### The Z80 -/

namespace Z80

/-- The reference of an operand: only addresses and distances have one. -/
def Pattern.reference : Pattern → Reference
  | address | atAddress => .word
  | offset => .distance
  | fixed _ | hl | atHl | word | byte | device => .nothing

/-- The operands of an opcode of the main page with the byte behind it, which is an opcode of
another page after `CB` and `ED`. -/
def opcodePatterns (b next : UInt8) : List Pattern :=
  if b = 0xCB then (bitsForm next).patterns next
  else if b = 0xED then (extendedForm next).patterns next
  else (mainForm b).patterns b

/-- The operands of an instruction with a given code. Behind an override a displacement byte stands
between `CB` and the opcode of the other page. -/
def patternsOf (code : List UInt8) : List Pattern :=
  let byte := fun k => code.getD k 0
  if byte 0 = 0xDD ∨ byte 0 = 0xFD then
    opcodePatterns (byte 1) (if byte 1 = 0xCB then byte 3 else byte 2)
  else opcodePatterns (byte 0) (byte 1)

/-- The references of the operands of an instruction with a given code. -/
def references (code : List UInt8) : List Reference := (patternsOf code).map Pattern.reference

/-- The opcode of the main page that leads to the page. -/
def Page.opcode : Page → UInt8
  | bits => 0xCB
  | extended => 0xED

theorem exists_index_opcode_iff (b : UInt8) :
    (∃ i : Index, b = i.opcode) ↔ b = 0xDD ∨ b = 0xFD := by
  constructor
  · rintro ⟨_ | _, rfl⟩
    · exact .inl rfl
    · exact .inr rfl
  · rintro (rfl | rfl)
    · exact ⟨.ix, rfl⟩
    · exact ⟨.iy, rfl⟩

theorem exists_page_opcode_iff (b : UInt8) :
    (∃ p : Page, b = p.opcode) ↔ b = 0xCB ∨ b = 0xED := by
  constructor
  · rintro ⟨_ | _, rfl⟩
    · exact .inl rfl
    · exact .inr rfl
  · rintro (rfl | rfl)
    · exact ⟨.bits, rfl⟩
    · exact ⟨.extended, rfl⟩

theorem mainForm_page (p : Page) : mainForm p.opcode = .page p := by
  cases p <;> decide

set_option maxRecDepth 2000 in
theorem eq_opcode_of_mainForm_page (p : Page) : ∀ b, mainForm b = .page p → b = p.opcode := by
  cases p <;> exact forall_byte (by decide)

namespace Head

variable {s : ByteStream}

theorem patterns_ofOpcode (s : ByteStream) (index : Option Index) (opcode : UInt8) (n : Nat) :
    (ofOpcode s index opcode n).patterns =
      opcodePatterns opcode (s (if innerAt index opcode then n + 1 else n)) := by
  by_cases hpage : ∃ p : Page, opcode = p.opcode
  · obtain ⟨p, rfl⟩ := hpage
    simp only [ofOpcode, mainForm_page]
    cases p <;> rfl
  · have hne : ∀ p : Page, opcode ≠ p.opcode := fun p hp => hpage ⟨p, hp⟩
    have hcb : opcode ≠ 0xCB := hne .bits
    have hed : opcode ≠ 0xED := hne .extended
    unfold opcodePatterns
    rw [if_neg hcb, if_neg hed]
    cases hf : mainForm opcode with
    | page p => exact absurd (eq_opcode_of_mainForm_page p _ hf) (hne p)
    | operation | override | undefined => simp only [ofOpcode, hf]

theorem patterns_read_eq (code : List UInt8) :
    (read (ofList code)).patterns = patternsOf code := by
  unfold patternsOf
  by_cases h : ∃ i : Index, ofList code 0 = i.opcode
  · have hover := (exists_index_opcode_iff _).mp h
    obtain ⟨i, hi⟩ := h
    have hnext : opcodePatterns (ofList code 1)
          (ofList code (if innerAt (some i) (ofList code 1) then 3 else 2)) =
        opcodePatterns (ofList code 1)
          (if ofList code 1 = 0xCB then ofList code 3 else ofList code 2) := by
      by_cases hcb : ofList code 1 = 0xCB
      · rw [hcb]
        rfl
      · by_cases h36 : ofList code 1 = 0x36
        -- The opcode 36 has a displacement byte behind it too, but leads to no other page.
        · rw [h36]
          rfl
        · have hin : innerAt (some i) (ofList code 1) = false := by simp [innerAt, hcb, h36]
          rw [hin, if_neg hcb]
          rfl
    rw [read_of_override hi, patterns_ofOpcode]
    exact hnext.trans (if_pos hover).symm
  · have hplain : ∀ i : Index, ofList code 0 ≠ i.opcode := fun i hi => h ⟨i, hi⟩
    rw [read_of_plain hplain, patterns_ofOpcode]
    exact (if_neg fun hover => h ((exists_index_opcode_iff _).mpr hover)).symm

set_option maxRecDepth 2000 in
/-- **Operand bytes.** At most one operand is read from the bytes behind the opcode, at most one
carries an address, and no displacement byte goes with an operand that does. -/
theorem patterns_read_data (s : ByteStream) :
    (∀ p ∈ (read s).patterns, 0 < p.size → (read s).dataLength = p.size) ∧
    (∀ p ∈ (read s).patterns, p.reference ≠ .nothing → .atHl ∉ (read s).patterns) ∧
    ((read s).patterns.map Pattern.reference).countP (· != .nothing) ≤ 1 := by
  refine forall_patterns_read (P := fun ps =>
    (∀ p ∈ ps, 0 < p.size → ps.foldr (fun p n => p.size + n) 0 = p.size) ∧
    (∀ p ∈ ps, p.reference ≠ .nothing → .atHl ∉ ps) ∧
    (ps.map Pattern.reference).countP (· != .nothing) ≤ 1) (forall_byte ?_) (fun p => ?_) s
  · decide
  · cases p <;> exact forall_byte (by decide)

theorem gives_operand {a : Address} {p : Pattern} (hp : p ∈ (read s).patterns) :
    Gives a (s.take (read s).codeLength) p.reference ((read s).operand a s p).address := by
  obtain ⟨hdata, hat, -⟩ := patterns_read_data s
  have hlength : p.reference ≠ .nothing → (read s).codeLength = (read s).length + p.size := by
    intro hr
    have hsize : 0 < p.size := by
      cases p <;> first | exact absurd rfl hr | decide
    have htrail : (read s).isTrailing = false := by
      simp [isTrailing, hat p hp hr]
    unfold codeLength
    rw [hdata p hp hsize, htrail]
    rfl
  cases p with
  | fixed | hl | atHl | word | byte | device => exact .nothing _
  | address | atAddress =>
    rw [hlength (by decide)]
    exact .of_word _
  | offset =>
    rw [hlength (by decide)]
    exact .of_distance _

end Head

theorem patternsOf_code (a : Address) (s : ByteStream) :
    patternsOf (decode a s).code = (Head.read s).patterns := by
  have hagree : s.Agree (ofList (decode a s).code) (Head.read s).codeLength := by
    have happend := s.agree_ofList_append (Head.read s).codeLength []
    rwa [List.append_nil] at happend
  rw [← Head.patterns_read_eq, Head.read_congr (hagree.mono ?_)]
  unfold Head.codeLength
  omega

theorem refers_decode (a : Address) (s : ByteStream) :
    (decode a s).Refers (references (decode a s).code) := by
  obtain ⟨-, -, hone⟩ := Head.patterns_read_data s
  unfold references
  rw [patternsOf_code]
  refine .of_gives ?_ hone
  show List.Forall₂ _ _ (((Head.read s).patterns.map _).map _)
  rw [List.map_map, List.forall₂_map_left_iff, List.forall₂_map_right_iff, List.forall₂_same]
  exact fun p hp => Head.gives_operand hp

end Z80

/-! ### Code that switches -/

namespace Dialect

/-- The references of the operands of an instruction with a given code. -/
def references : Dialect → List UInt8 → List Reference
  | mos6502 => Mos6502.Variant.nmos.references
  | sweet16 => Sweet16.references

theorem refers_decode (dialect : Dialect) (a : Address) (s : ByteStream) :
    (dialect.decode a s).Refers (dialect.references (dialect.decode a s).code) := by
  cases dialect with
  | mos6502 => exact Mos6502.Variant.refers_decode _ _ _
  | sweet16 => exact Sweet16.refers_decode _ _

/-- The instruction set behind a line: that of the directive, if the line is one. -/
def behind (dialect : Dialect) (i : Instruction) : Dialect :=
  if i.mnemonic = ".6502" then mos6502
  else if i.mnemonic = ".SWEET16" then sweet16
  else dialect

/-- The instruction set behind some lines. -/
def after (dialect : Dialect) (is : List Instruction) : Dialect := is.foldl behind dialect

theorem behind_directive (d dialect : Dialect) (a : Address) :
    d.behind (dialect.directive a) = dialect := by
  cases dialect <;> rfl

theorem behind_decode (d dialect : Dialect) (a : Address) (s : ByteStream) :
    d.behind (dialect.decode a s) = d := by
  have h := dialect.mnemonic_decode_notMem a s
  simp only [reservedMnemonics, List.mem_cons, not_or] at h
  unfold behind
  rw [if_neg h.2.1, if_neg h.2.2.1]

end Dialect

namespace Switching

/-- What a step does: it pays the directive that is owed, or takes an instruction of the plain
decoder, and then goes on in the same instruction set unless it owes a directive. -/
theorem step_cases (w : Switching) (c : Cursor) :
    (∃ a, (Decoder.switching w).instruction c = w.dialect.directive a ∧
      (Decoder.switching w).next c = .switching ⟨w.dialect, none⟩) ∨
    (w.pending = none ∧
      (Decoder.switching w).instruction c = w.dialect.decode c.address c.ahead ∧
      ∃ w', (Decoder.switching w).next c = .switching w' ∧
        (w'.pending = none → w.dialect = w'.dialect)) := by
  simp only [Decoder.instruction, Decoder.next, decode, next]
  cases hp : w.pending with
  | some a => exact .inl ⟨a, rfl, rfl⟩
  | none =>
    refine .inr ⟨rfl, rfl, behind w.dialect (w.dialect.decode c.address c.ahead), rfl, ?_⟩
    unfold behind
    split
    · intro h
      cases h
    · exact fun _ => rfl

/-- The references of a line, where `dialect` is the instruction set that the last directive before
it names. A directive itself has no operands. -/
def references (dialect : Dialect) (code : List UInt8) : List Reference :=
  if code = [] then [] else dialect.references code

theorem refers_directive (dialect d : Dialect) (a : Address) :
    (dialect.directive a).Refers (references d (dialect.directive a).code) := by
  cases dialect <;> exact .of_gives .nil (Nat.zero_le _)

theorem refers_decode (dialect : Dialect) (a : Address) (s : ByteStream) :
    (dialect.decode a s).Refers (references dialect (dialect.decode a s).code) := by
  have hcode : (dialect.decode a s).code ≠ [] := by
    rw [← List.length_pos_iff]
    cases dialect with
    | mos6502 =>
      show 0 < (Mos6502.Variant.decode _ a s).code.length
      rw [Mos6502.Variant.length_code_decode]
      exact Mos6502.Mode.length_pos _
    | sweet16 =>
      show 0 < (Sweet16.decode a s).code.length
      rw [Sweet16.length_code_decode]
      exact Sweet16.Shape.length_pos _
  unfold references
  rw [if_neg hcode]
  exact dialect.refers_decode a s

/-- **Line by line**: unless a directive is owed, the lines before tell the instruction set that the
decoder is in, so that they tell the references of the next line. -/
theorem refers_listing : ∀ (n : Nat) {d : Dialect} {w : Switching} {c : Cursor} {i : Instruction},
    (w.pending = none → d = w.dialect) →
    ((Decoder.switching w).listing c).instructions[n]? = some i →
    i.Refers (references
      (d.after (((Decoder.switching w).listing c).instructions.take n)) i.code)
  | n, d, w, c, i, hd, hi => by
    cases hw : (Decoder.switching w).hasWork c with
    | false =>
      rw [Decoder.listing_done hw] at hi
      cases hi
    | true =>
      rw [Decoder.listing_step hw] at hi ⊢
      simp only [Listing.instructions_cons] at hi ⊢
      rcases w.step_cases c with ⟨a, hline, hnext⟩ | ⟨hp, hline, w', hnext, hw'⟩
      · rw [hline, hnext] at hi ⊢
        cases n with
        | zero =>
          obtain rfl := Option.some.inj hi
          exact refers_directive _ _ _
        | succ n =>
          rw [List.take_succ_cons, Dialect.after, List.foldl_cons, Dialect.behind_directive]
          exact refers_listing n (fun _ => rfl) hi
      · obtain rfl := hd hp
        rw [hline, hnext] at hi ⊢
        cases n with
        | zero =>
          obtain rfl := Option.some.inj hi
          exact refers_decode _ _ _
        | succ n =>
          rw [List.take_succ_cons, Dialect.after, List.foldl_cons, Dialect.behind_decode]
          exact refers_listing n hw' hi

end Switching

/-! ### Listings -/

/-- **The operands carry the addresses that the bytes say.** Every line outside p-code has at most
one operand with an address, and the kind of each operand, which its opcode bytes give, tells the
address:
* in absolute operands the last two bytes of the code, as a little-endian word;
* in operands of the 6502 family that have one byte and are no constants, the last byte;
* in branches the sum, modulo 65536, of the address of the line, the length of its code and the last
  byte as a signed number.

All other operands have no address. For code that switches the instruction set of a line is the one
that the last directive before it names, and the 6502 without one. -/
theorem operands_refer (m : Image) :
    (∀ i ∈ (Architecture.mos6502.listing m).instructions,
      i.Refers (Mos6502.Variant.nmos.references i.code)) ∧
    (∀ i ∈ (Architecture.undocumented6502.listing m).instructions,
      i.Refers (Mos6502.Variant.undocumented.references i.code)) ∧
    (∀ i ∈ (Architecture.cmos65C02.listing m).instructions,
      i.Refers (Mos6502.Variant.cmos.references i.code)) ∧
    (∀ i ∈ (Architecture.sweet16.listing m).instructions,
      i.Refers (Sweet16.references i.code)) ∧
    (∀ i ∈ (Architecture.z80.listing m).instructions,
      i.Refers (Z80.references i.code)) ∧
    ∀ (n : Nat) (i : Instruction),
      (Architecture.switching6502.listing m).instructions[n]? = some i →
      i.Refers (Switching.references
        (Dialect.mos6502.after ((Architecture.switching6502.listing m).instructions.take n))
        i.code) := by
  have hlines : ∀ {d : Decoder} (references : List UInt8 → List Reference),
      (∀ c, (d.instruction c).Refers (references (d.instruction c).code)) →
      (∀ w, d ≠ .switching w) →
      ∀ i ∈ (d.listing { image := m }).instructions, i.Refers (references i.code) := by
    intro d references hstep hs
    refine Decoder.forall_mem_listing (Q := fun e _ => e = d) ?_ rfl
    rintro e c - rfl
    exact ⟨hstep c, Decoder.next_eq_self hs c⟩
  refine ⟨?_, ?_, ?_, ?_, ?_, fun n i hi => Switching.refers_listing n (fun _ => rfl) hi⟩
  · exact hlines _ (fun c => Mos6502.Variant.refers_decode _ _ _) nofun
  · exact hlines _ (fun c => Mos6502.Variant.refers_decode _ _ _) nofun
  · exact hlines _ (fun c => Mos6502.Variant.refers_decode _ _ _) nofun
  · exact hlines _ (fun c => Sweet16.refers_decode _ _) nofun
  · exact hlines _ (fun c => Z80.refers_decode _ _) nofun

/-- A jump and a load behind overrides, and a branch of SWEET16 behind its directive, all of them
across the end of the address space. -/
theorem operands_refer_wrapping :
    let z80 : Image :=
      { base := 0xFFFD, bytes := #[0xFD, 0x18, 0x05, 0xDD, 0xED, 0x4B, 0x34, 0x12] }
    let jump : Instruction :=
      { address := 0xFFFD, code := [0xFD, 0x18, 0x05], mnemonic := "JR",
        operands := [.bare "0005H" 0x0005] }
    let load : Instruction :=
      { address := 0x0000, code := [0xDD, 0xED, 0x4B, 0x34, 0x12], mnemonic := "LD",
        operands := [.text "BC", .bracketed "1234H" 0x1234] }
    let switching : Image := { base := 0xFFFC, bytes := #[0x20, 0x89, 0xF6, 0x01, 0xFC] }
    let branch : Instruction :=
      { address := 0xFFFF, code := [0x01, 0xFC], mnemonic := "BR",
        operands := [.bare "$FFFD" 0xFFFD] }
    (Architecture.z80.listing z80).instructions = [jump, load] ∧
      jump.Refers [.distance] ∧ load.Refers [.nothing, .word] ∧
      (Architecture.switching6502.listing switching).instructions[2]? = some branch ∧
      branch.Refers [.distance] := by
  intro z80 jump load switching branch
  have hz80 : (Architecture.z80.listing z80).instructions = [jump, load] := by
    rw [Architecture.listing, Decoder.listing_step (by decide), Decoder.listing_step (by decide),
      Decoder.listing_done (by decide)]
    decide
  have hswitching : (Architecture.switching6502.listing switching).instructions =
      [{ address := 0xFFFC, code := [0x20, 0x89, 0xF6], mnemonic := "JSR",
         operands := [.bare "$F689" 0xF689] },
        { address := 0xFFFF, mnemonic := ".SWEET16" }, branch] := by
    rw [Architecture.listing, Decoder.listing_step (by decide), Decoder.listing_step (by decide),
      Decoder.listing_step (by decide), Decoder.listing_done (by decide)]
    decide
  have hline : (Architecture.switching6502.listing switching).instructions[2]? = some branch := by
    rw [hswitching]
    rfl
  obtain ⟨-, -, -, -, hlines, -⟩ := operands_refer z80
  obtain ⟨-, -, -, -, -, hlines'⟩ := operands_refer switching
  rw [hz80] at hlines
  have hjump := hlines jump List.mem_cons_self
  have hload := hlines load (List.mem_cons_of_mem _ List.mem_cons_self)
  have hbranch := hlines' 2 branch hline
  rw [show Z80.references jump.code = [.distance] by decide] at hjump
  rw [show Z80.references load.code = [.nothing, .word] by decide] at hload
  rw [hswitching, show Switching.references _ branch.code = [.distance] by decide] at hbranch
  exact ⟨hz80, hjump, hload, hline, hbranch⟩

end Disassembly
