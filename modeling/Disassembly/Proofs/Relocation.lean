import Disassembly.Proofs.Causality
import Mathlib.Data.List.Forall2

/-! # The same bytes at other addresses

A listing depends on the address of its image in few places: the addresses of the lines, the targets
of branches by a distance, and in p-code also the words that count from their own address and the
fillers in front of words at even addresses.

* `Cursor.Moved`: the bytes ahead of two cursors are the same, at addresses that differ by `delta`.
  The cursors may stand at different offsets, as long as equally many bytes are left.
* `Instruction.Relocated`, `PCode.Relocated`: how a line may differ then.
* `Decoder.instruction_moved`, `PCode.instruction_moved`: one step.
* `Decoder.forall₂_listing`: two runs whose steps are related list related lines. -/

namespace Disassembly

/-! ### How lines move -/

/-- The mnemonics of branches by a distance. -/
def branchMnemonics : List String :=
  ["BPL", "BMI", "BVC", "BVS", "BRA", "BCC", "BCS", "BNE", "BEQ", "BR", "BNC", "BC", "BP", "BM",
    "BZ", "BNZ", "BM1", "BNM1", "BS", "DJNZ", "JR"]

/-- An operand before and after a move by `delta`: text stays, and an address moves together with
the literal that shows it. -/
inductive Operand.Moved (delta : Address) : Operand → Operand → Prop
  | text (v : String) : Moved delta (.text v) (.text v)
  | dollar (t : String) (a : Address) :
      Moved delta (.place t (Address.dollarWord a) a)
        (.place t (Address.dollarWord (a + delta)) (a + delta))
  | suffixed (t : String) (a : Address) :
      Moved delta (.place t (Z80.wordText a) a)
        (.place t (Z80.wordText (a + delta)) (a + delta))

/-- What a line keeps when it moves by `delta`. -/
structure Instruction.Moved (delta : Address) (i i' : Instruction) : Prop where
  address : i'.address = i.address + delta
  code : i'.code = i.code
  mnemonic : i'.mnemonic = i.mnemonic
  templates : i'.operands.map Operand.template = i.operands.map Operand.template

/-- A line outside p-code before and after a move: only the operands of branches move with it. -/
structure Instruction.Relocated (delta : Address) (i i' : Instruction) : Prop
    extends Instruction.Moved delta i i' where
  branch : i.mnemonic ∈ branchMnemonics →
    List.Forall₂ (Operand.Moved delta) i.operands i'.operands
  other : i.mnemonic ∉ branchMnemonics → i'.operands = i.operands

/-- A line of p-code before and after a move: all addresses move with it. In a case jump the address
behind its table is shown as text, and moves too. -/
structure PCode.Relocated (delta : Address) (i i' : Instruction) : Prop
    extends Instruction.Moved delta i i' where
  caseJump : i.mnemonic = "XJP" → ∃ range past cases cases',
    i.operands = .text range :: .text ("UJP " ++ Address.dollarWord past) :: cases ∧
    i'.operands = .text range :: .text ("UJP " ++ Address.dollarWord (past + delta)) :: cases' ∧
    List.Forall₂ (Operand.Moved delta) cases cases'
  other : i.mnemonic ≠ "XJP" → List.Forall₂ (Operand.Moved delta) i.operands i'.operands

variable {delta : Address}

theorem Operand.Moved.template_eq {o o' : Operand} (h : o.Moved delta o') :
    o'.template = o.template := by
  cases h <;> rfl

theorem map_template_eq {os os' : List Operand} (h : List.Forall₂ (Operand.Moved delta) os os') :
    os'.map Operand.template = os.map Operand.template := by
  induction h with
  | nil => rfl
  | cons ho _ ih => rw [List.map_cons, List.map_cons, ih, ho.template_eq]

/-! ### Two runs in step -/

namespace Decoder

/-- **Two runs in step**: if related steps have related lines and lead to related steps, and one run
goes on exactly if the other does, the lines of the listings are related one by one. -/
theorem forall₂_listing {Q : Decoder → Cursor → Decoder → Cursor → Prop}
    {R : Instruction → Instruction → Prop}
    (work : ∀ d c d' c', Q d c d' c' → d'.hasWork c' = d.hasWork c)
    (step : ∀ d c d' c', Q d c d' c' → R (d.instruction c) (d'.instruction c') ∧
      Q (d.next c) (d.advance c) (d'.next c') (d'.advance c'))
    {d : Decoder} {c : Cursor} {d' : Decoder} {c' : Cursor} (h : Q d c d' c') :
    List.Forall₂ R (d.listing c).instructions (d'.listing c').instructions ∧
      Q (d.listing c).decoder (d.listing c).cursor (d'.listing c').decoder
        (d'.listing c').cursor := by
  fun_induction listing d c generalizing d' c' with
  | case1 d c hw ih =>
    have hw' : d'.hasWork c' = true := (work d c d' c' h).trans hw
    obtain ⟨hline, hnext⟩ := step d c d' c' h
    obtain ⟨hlines, hend⟩ := ih hnext
    rw [listing_step hw']
    exact ⟨.cons hline hlines, hend⟩
  | case2 d c hw =>
    have hw' : d'.hasWork c' = false := (work d c d' c' h).trans (Bool.eq_false_iff.mpr hw)
    rw [listing_done hw']
    exact ⟨.nil, h⟩

end Decoder

/-! ### Cursors -/

/-- The bytes ahead of the second cursor are those ahead of the first one, `delta` addresses further
on, and equally many of them are inside the image. -/
structure Cursor.Moved (delta : Address) (c c' : Cursor) : Prop where
  address : c'.address = c.address + delta
  ahead : c'.ahead = c.ahead
  left : (c'.image.size : Int) - c'.offset = c.image.size - c.offset
  mark : c'.mark = c.mark

namespace Cursor.Moved

variable {c c' : Cursor}

theorem hasMore_eq (h : c.Moved delta c') : c'.hasMore = c.hasMore := by
  have hleft := h.left
  rw [Bool.eq_iff_iff, c'.hasMore_iff, c.hasMore_iff]
  omega

theorem step (h : c.Moved delta c') (n : Nat) (mark : Int) :
    ((c.advance n).withMark mark).Moved delta ((c'.advance n).withMark mark) := by
  have hleft := h.left
  refine ⟨?_, ?_, ?_, rfl⟩
  · show (c'.advance n).address = (c.advance n).address + delta
    rw [Cursor.address_advance, Cursor.address_advance, h.address]
    grind
  · show (c'.advance n).ahead = (c.advance n).ahead
    rw [Cursor.ahead_advance, Cursor.ahead_advance, h.ahead]
  · simp only [Cursor.image_withMark, Cursor.image_advance, Cursor.offset_withMark,
      Cursor.offset_advance]
    omega

end Cursor.Moved

theorem Address.move_add (a delta : Address) (d : Int) : (a + delta).move d = a.move d + delta := by
  unfold move
  grind

theorem Address.branch_add (a delta : Address) (d : Int) :
    (a + delta).branch d = a.branch d + delta := by
  unfold branch
  rw [← Address.move_add]
  congr 1
  grind

/-! ### The 6502 family and SWEET16 -/

theorem Instruction.Relocated.of_operands {i i' : Instruction} (ha : i'.address = i.address + delta)
    (hc : i'.code = i.code) (hm : i'.mnemonic = i.mnemonic)
    (hb : i.mnemonic ∈ branchMnemonics → List.Forall₂ (Operand.Moved delta) i.operands i'.operands)
    (ho : i.mnemonic ∉ branchMnemonics → i'.operands = i.operands) : i.Relocated delta i' := by
  refine ⟨⟨ha, hc, hm, ?_⟩, hb, ho⟩
  by_cases h : i.mnemonic ∈ branchMnemonics
  · exact map_template_eq (hb h)
  · rw [ho h]

namespace Mos6502

theorem Variant.mode_eq_relative_iff (v : Variant) :
    ∀ b, (v.entry b).mode = .relative ↔ (v.entry b).mnemonic ∈ branchMnemonics := by
  cases v <;> exact forall_byte (by decide +kernel)

theorem Mode.operands_moved {mode : Mode} (h : mode ≠ .relative) (a a' : Address) (s : ByteStream) :
    mode.operands a' s = mode.operands a s := by
  cases mode with
  | relative => exact absurd rfl h
  | implicit | accumulator | immediate | zeroPage | zeroPageX | zeroPageY | absolute | absoluteX
  | absoluteY | indirect | absoluteIndexedIndirect | zeroPageIndirect | indirectX | indirectY
  | undefined1 | undefined2 | undefined3 => rfl

theorem Variant.decode_moved (v : Variant) (a : Address) (s : ByteStream) :
    (v.decode a s).Relocated delta (v.decode (a + delta) s) := by
  refine .of_operands rfl rfl rfl (fun hb => ?_) fun hb => ?_
  · have hmode := (v.mode_eq_relative_iff (s 0)).mpr hb
    show List.Forall₂ _ ((v.entry (s 0)).mode.operands a s) _
    show List.Forall₂ _ _ ((v.entry (s 0)).mode.operands (a + delta) s)
    rw [hmode]
    simp only [Mode.operands, Address.branch_add]
    exact .cons (.dollar _ _) .nil
  · have hmode : (v.entry (s 0)).mode ≠ .relative := fun h =>
      hb ((v.mode_eq_relative_iff (s 0)).mp h)
    exact Mode.operands_moved hmode a (a + delta) s

end Mos6502

namespace Sweet16

theorem shape_eq_branch_iff :
    ∀ b, (entry b).shape = .branch ↔ (entry b).mnemonic ∈ branchMnemonics :=
  forall_byte (by decide +kernel)

theorem Shape.operands_moved {shape : Shape} (h : shape ≠ .branch) (a a' : Address)
    (s : ByteStream) : shape.operands a' s = shape.operands a s := by
  cases shape with
  | branch => exact absurd rfl h
  | constant | direct | indirect | implied => rfl

theorem decode_moved (a : Address) (s : ByteStream) :
    (decode a s).Relocated delta (decode (a + delta) s) := by
  refine .of_operands rfl rfl rfl (fun hb => ?_) fun hb => ?_
  · have hshape := (shape_eq_branch_iff (s 0)).mpr hb
    show List.Forall₂ _ ((entry (s 0)).shape.operands a s) _
    show List.Forall₂ _ _ ((entry (s 0)).shape.operands (a + delta) s)
    rw [hshape]
    simp only [Shape.operands, Address.branch_add]
    exact .cons (.dollar _ _) .nil
  · have hshape : (entry (s 0)).shape ≠ .branch := fun h => hb ((shape_eq_branch_iff (s 0)).mp h)
    exact Shape.operands_moved hshape a (a + delta) s

end Sweet16

theorem Dialect.decode_moved (dialect : Dialect) (a : Address) (s : ByteStream) :
    (dialect.decode a s).Relocated delta (dialect.decode (a + delta) s) := by
  cases dialect with
  | mos6502 => exact Mos6502.Variant.decode_moved _ a s
  | sweet16 => exact Sweet16.decode_moved a s

/-! ### The Z80 -/

namespace Z80

/-- A branch has no address that is given in full, and no other instruction has a distance. -/
def BranchPatterns (name : String) (ps : List Pattern) : Prop :=
  (name ∈ branchMnemonics → ∀ p ∈ ps, p ≠ .address ∧ p ≠ .atAddress) ∧
    (name ∉ branchMnemonics → .offset ∉ ps)

theorem branchPatterns_mainForm :
    ∀ b, BranchPatterns ((mainForm b).mnemonic b) ((mainForm b).patterns b) := by
  unfold BranchPatterns
  exact forall_byte (by decide +kernel)

theorem Page.branchPatterns_form (p : Page) :
    ∀ b, BranchPatterns ((p.form b).mnemonic b) ((p.form b).patterns b) := by
  unfold BranchPatterns
  cases p <;> exact forall_byte (by decide +kernel)

namespace Head

theorem branchPatterns_ofOpcode (s : ByteStream) (index : Option Index) (opcode : UInt8) (n : Nat) :
    BranchPatterns (ofOpcode s index opcode n).mnemonic (ofOpcode s index opcode n).patterns := by
  have hmain := branchPatterns_mainForm opcode
  cases hf : mainForm opcode with
  | page p =>
    simp only [ofOpcode, hf]
    exact p.branchPatterns_form _
  | operation | override | undefined =>
    rw [hf] at hmain
    simpa only [ofOpcode, hf] using hmain

theorem branchPatterns_read (s : ByteStream) :
    BranchPatterns (read s).mnemonic (read s).patterns := by
  unfold read
  split <;> exact branchPatterns_ofOpcode _ _ _ _

theorem jumpTarget_add (h : Head) (a delta : Address) (s : ByteStream) :
    h.jumpTarget (a + delta) s = h.jumpTarget a s + delta := by
  unfold jumpTarget
  rw [← Address.move_add]
  congr 1
  grind

theorem operand_moved (h : Head) {p : Pattern} (hp : p ≠ .offset) (a a' : Address)
    (s : ByteStream) : h.operand a' s p = h.operand a s p := by
  cases p with
  | offset => exact absurd rfl hp
  | fixed | hl | atHl | word | byte | address | atAddress | device => rfl

theorem moved_operand (h : Head) {p : Pattern} (hp : p ≠ .address ∧ p ≠ .atAddress) (a : Address)
    (s : ByteStream) : (h.operand a s p).Moved delta (h.operand (a + delta) s p) := by
  cases p with
  | offset =>
    simp only [operand, jumpTarget_add]
    exact .suffixed _ _
  | address => exact absurd rfl hp.1
  | atAddress => exact absurd rfl hp.2
  | fixed | hl | atHl | word | byte | device => exact .text _

end Head

theorem decode_moved (a : Address) (s : ByteStream) :
    (decode a s).Relocated delta (decode (a + delta) s) := by
  obtain ⟨hbranch, hother⟩ := Head.branchPatterns_read s
  refine .of_operands rfl rfl rfl (fun hb => ?_) fun hb => ?_
  · refine List.forall₂_map_left_iff.mpr (List.forall₂_map_right_iff.mpr ?_)
    exact List.forall₂_same.mpr fun p hp => (Head.read s).moved_operand (hbranch hb p hp) a s
  · refine List.map_congr_left fun p hp => (Head.read s).operand_moved ?_ a (a + delta) s
    rintro rfl
    exact hother hb hp

end Z80

/-! ### Code that switches -/

namespace Switching

/-- The state of the decoder at other addresses. -/
def moved (delta : Address) (w : Switching) : Switching :=
  { w with pending := w.pending.map (· + delta) }

theorem isTrigger_moved {i i' : Instruction} (h : i.Relocated delta i') (dialect : Dialect) :
    isTrigger dialect i' = isTrigger dialect i := by
  cases dialect with
  | sweet16 => simp only [isTrigger, h.mnemonic]
  | mos6502 =>
    simp only [isTrigger, h.mnemonic]
    by_cases hname : i.mnemonic = "JSR"
    · -- A call is no branch, so that its target stays.
      have hops : i'.operands = i.operands := h.other (by rw [hname]; decide)
      rw [Instruction.target, Instruction.target, hops]
    · have hne : (i.mnemonic == "JSR") = false := beq_false_of_ne hname
      rw [hne, Bool.false_and, Bool.false_and]

theorem behind_moved {i i' : Instruction} (h : i.Relocated delta i') (dialect : Dialect) :
    behind dialect i' = (behind dialect i).moved delta := by
  have haddr : addressBehind i' = addressBehind i + delta := by
    unfold addressBehind
    rw [h.address, h.code]
    grind
  unfold behind
  rw [isTrigger_moved h, haddr]
  split <;> rfl

theorem decode_moved (w : Switching) (a : Address) (s : ByteStream) :
    (w.decode a s).Relocated delta ((w.moved delta).decode (a + delta) s) := by
  cases hw : w.pending with
  | some d =>
    simp only [decode, moved, hw, Option.map_some]
    cases w.dialect with
    | mos6502 | sweet16 =>
      exact .of_operands rfl rfl rfl (fun _ => .nil) fun _ => rfl
  | none =>
    simp only [decode, moved, hw, Option.map_none]
    exact w.dialect.decode_moved a s

theorem next_moved (w : Switching) (a : Address) (s : ByteStream) :
    (w.moved delta).next (a + delta) s = (w.next a s).moved delta := by
  cases hw : w.pending with
  | some d => simp only [next, moved, hw, Option.map_some, Option.map_none]
  | none =>
    have hline : (w.dialect.decode a s).Relocated delta (w.dialect.decode (a + delta) s) :=
      w.dialect.decode_moved a s
    simpa only [next, moved, hw, Option.map_none] using behind_moved hline w.dialect

end Switching

/-! ### Decoders -/

namespace Decoder

/-- The decoder at other addresses: a directive that is owed moves. -/
def moved (delta : Address) : Decoder → Decoder
  | switching w => switching (w.moved delta)
  | d => d

theorem owes_moved (d : Decoder) : (d.moved delta).owes = d.owes := by
  cases d with
  | switching w => simp [moved, owes, Switching.moved]
  | mos6502 | sweet16 | z80 | pcode => rfl

theorem hasWork_moved {c c' : Cursor} (h : c.Moved delta c') (d : Decoder) :
    (d.moved delta).hasWork c' = d.hasWork c := by
  unfold hasWork
  rw [h.hasMore_eq, owes_moved]

/-- **One step** outside p-code. -/
theorem instruction_moved {d : Decoder} {c c' : Cursor} (hd : d ≠ .pcode)
    (h : c.Moved delta c') :
    (d.instruction c).Relocated delta ((d.moved delta).instruction c') := by
  cases d with
  | pcode => exact absurd rfl hd
  | mos6502 v =>
    simp only [instruction, moved, h.address, h.ahead]
    exact v.decode_moved c.address c.ahead
  | sweet16 =>
    simp only [instruction, moved, h.address, h.ahead]
    exact Sweet16.decode_moved c.address c.ahead
  | z80 =>
    simp only [instruction, moved, h.address, h.ahead]
    exact Z80.decode_moved c.address c.ahead
  | switching w =>
    simp only [instruction, moved, h.address, h.ahead]
    exact w.decode_moved c.address c.ahead

theorem next_moved {c c' : Cursor} (h : c.Moved delta c') (d : Decoder) :
    (d.moved delta).next c' = (d.next c).moved delta := by
  cases d with
  | switching w =>
    simp only [next, moved, h.address, h.ahead, w.next_moved]
  | mos6502 | sweet16 | z80 | pcode => rfl

theorem moved_ne_pcode {d : Decoder} (hd : d ≠ .pcode) : d.moved delta ≠ .pcode := by
  cases d with
  | pcode => exact absurd rfl hd
  | mos6502 | sweet16 | switching | z80 => exact fun h => nomatch h

theorem markAfter_of_ne_pcode {d : Decoder} (hd : d ≠ .pcode) (c : Cursor) :
    d.markAfter c = c.mark := by
  cases d with
  | pcode => exact absurd rfl hd
  | mos6502 | sweet16 | switching | z80 => rfl

/-- The cursors behind lines of the same length are related again. -/
theorem advance_moved {d d' : Decoder} {c c' : Cursor} (h : c.Moved delta c')
    (hc : (d'.instruction c').code = (d.instruction c).code)
    (hm : d'.markAfter c' = d.markAfter c) : (d.advance c).Moved delta (d'.advance c') := by
  unfold advance
  rw [hc, hm]
  exact h.step _ _

end Decoder

/-! ### p-code -/

namespace PCode

/-- The jump tables of two images lead to addresses that differ by `delta`, an even number. -/
structure TableMoved (delta : Address) (m m' : Image) : Prop where
  even : delta.toNat % 2 = 0
  slot : ∀ b, signed b < 0 → slotTarget m' (signed b) = slotTarget m (signed b) + delta

/-- What has been read of a line before and after a move. -/
structure Reading.Moved (delta : Address) (r r' : Reading) : Prop where
  length : r'.length = r.length
  mark : r'.mark = r.mark
  mnemonic : r'.mnemonic = r.mnemonic
  operands : List.Forall₂ (Operand.Moved delta) r.operands r'.operands

section Step

variable {c c' : Cursor} (h : c.Moved delta c') (ht : TableMoved delta c.image c'.image)
include h

theorem inTable_moved : inTable c' = inTable c := by
  have hleft := h.left
  have hmark := h.mark
  unfold inTable slotOffset attributeBytes
  rw [decide_eq_decide]
  omega

theorem selfRelative_moved (k : Nat) : selfRelative c' k = selfRelative c k + delta := by
  unfold selfRelative
  rw [h.address, h.ahead]
  grind

include ht

theorem aligned_moved (n : Nat) : Reading.aligned c' n = Reading.aligned c n := by
  have heven := ht.even
  have haddr : c'.address.toNat = (c.address.toNat + delta.toNat) % 65536 := by
    rw [h.address, UInt16.toNat_add]
  unfold Reading.aligned
  omega

omit h in
theorem jumpTarget_moved (a : Address) (b : UInt8) :
    jumpTarget c'.image (a + delta) (signed b) = jumpTarget c.image a (signed b) + delta := by
  unfold jumpTarget
  split
  · rw [← Address.move_add]
    congr 1
    grind
  · next hneg => exact ht.slot b (Int.not_le.mp hneg)

end Step

namespace Reading

variable {r r' : Reading}

theorem Moved.extend (h : r.Moved delta r') (n : Nat) {os os' : List Operand}
    (hos : List.Forall₂ (Operand.Moved delta) os os') :
    (r.extend n os).Moved delta (r'.extend n os') :=
  ⟨congrArg (· + n) h.length, h.mark, h.mnemonic, List.rel_append h.operands hos⟩

theorem Moved.jumped (h : r.Moved delta r') (m m' : Image) (distance : Int) :
    (r.jumped m distance).Moved delta (r'.jumped m' distance) :=
  ⟨h.length, congrArg (markAfter · distance) h.mark, h.mnemonic, h.operands⟩

section Step

variable {c c' : Cursor} (h : c.Moved delta c') (ht : TableMoved delta c.image c'.image)
include h

theorem big_moved (hr : r.Moved delta r') : (r.big c).Moved delta (r'.big c') := by
  simp only [big, hr.length, h.ahead]
  exact hr.extend _ (.cons (.text _) .nil)

theorem comparison_moved (hr : r.Moved delta r') :
    (r.comparison c).Moved delta (r'.comparison c') := by
  obtain ⟨n, mark, name, os, es⟩ := r
  obtain ⟨n', mark', name', os', es'⟩ := r'
  obtain ⟨rfl, rfl, rfl, hos⟩ := hr
  have hname : Moved delta ⟨n', mark', name' ++ typeSuffix (c.ahead n'), os, es⟩
      ⟨n', mark', name' ++ typeSuffix (c.ahead n'), os', es'⟩ := ⟨rfl, rfl, rfl, hos⟩
  simp only [comparison, h.ahead]
  split
  · exact big_moved h (hname.extend 1 .nil)
  · exact hname.extend 1 .nil

theorem standardCall_moved (hr : r.Moved delta r') :
    (r.standardCall c).Moved delta (r'.standardCall c') := by
  obtain ⟨n, mark, name, os, es⟩ := r
  obtain ⟨n', mark', name', os', es'⟩ := r'
  obtain ⟨rfl, rfl, rfl, hos⟩ := hr
  simp only [standardCall, h.ahead]
  split
  · next proc _ =>
    have hname : Moved delta ⟨n', mark', proc, os, es⟩ ⟨n', mark', proc, os', es'⟩ :=
      ⟨rfl, rfl, rfl, hos⟩
    exact hname.extend 1 .nil
  · have hsame : Moved delta ⟨n', mark', name', os, es⟩ ⟨n', mark', name', os', es'⟩ :=
      ⟨rfl, rfl, rfl, hos⟩
    exact hsame.extend 1 (.cons (.text _) .nil)

include ht

theorem constants_moved (hr : r.Moved delta r') :
    (r.constants c).Moved delta (r'.constants c') := by
  simp only [constants, hr.length, h.ahead, aligned_moved h ht]
  refine ⟨rfl, hr.mark, hr.mnemonic, List.rel_append hr.operands (.cons (.text _) ?_)⟩
  exact List.forall₂_map_left_iff.mpr (List.forall₂_map_right_iff.mpr
    (List.forall₂_same.mpr fun _ _ => .text _))

/-- A parameter other than a case jump reads the same after a move. -/
theorem read_moved (hr : r.Moved delta r') {p : Param} (hp : p ≠ .caseJump) :
    (r.read c p).Moved delta (r'.read c' p) := by
  cases p with
  | caseJump => exact absurd rfl hp
  | byte | small | word =>
    simp only [read, hr.length, h.ahead]
    exact hr.extend _ (.cons (.text _) .nil)
  | packedArray | string =>
    simp only [read, quoted, hr.length, h.ahead]
    exact hr.extend _ (.cons (.text _) .nil)
  | jump =>
    simp only [read, hr.length, h.ahead, h.address, jumpTarget_moved ht]
    exact (hr.jumped _ _ _).extend 1 (.cons (.dollar _ _) .nil)
  | big => exact big_moved h hr
  | comparison => exact comparison_moved h hr
  | standardCall => exact standardCall_moved h hr
  | constants => exact constants_moved h ht hr

theorem foldl_read_moved : ∀ (ps : List Param) {r r' : Reading}, r.Moved delta r' →
    (∀ p ∈ ps, p ≠ .caseJump) → (ps.foldl (read c) r).Moved delta (ps.foldl (read c') r')
  | [], _, _, hr, _ => hr
  | p :: ps, _, _, hr, hp =>
    foldl_read_moved ps (read_moved h ht hr (hp p List.mem_cons_self))
      fun q hq => hp q (List.mem_cons_of_mem p hq)

end Step

end Reading

/-- A case jump is the only parameter of its opcode. -/
theorem params_entry_caseJump : ∀ b,
    ((entry b).params = [.caseJump] ∧ (entry b).implied = none ∧ (entry b).mnemonic = "XJP") ∨
    ((∀ p ∈ (entry b).params, p ≠ .caseJump) ∧ "XJP" ∉ (entry b).mnemonics) :=
  forall_byte (by decide +kernel)

section Step

variable {c c' : Cursor} (h : c.Moved delta c') (ht : TableMoved delta c.image c'.image)
include h

theorem readSlot_moved : (readSlot c).Moved delta (readSlot c') := by
  simp only [readSlot, selfRelative_moved h, h.mark]
  exact ⟨rfl, rfl, rfl, .cons (.dollar _ _) .nil⟩

include ht

theorem readOperation_moved (hp : ∀ p ∈ (entry (c.ahead 0)).params, p ≠ .caseJump) :
    (readOperation c).Moved delta (readOperation c') := by
  simp only [readOperation, h.ahead, h.mark]
  refine (Reading.foldl_read_moved h ht _ ?_ hp).extend 0 ?_
  · exact ⟨rfl, rfl, rfl, .nil⟩
  · cases (entry (c.ahead 0)).implied with
    | none => exact .nil
    | some n => exact .cons (.text _) .nil

/-- A case jump before and after a move. -/
theorem readOperation_caseJump_moved (hp : (entry (c.ahead 0)).params = [.caseJump])
    (hi : (entry (c.ahead 0)).implied = none) :
    (readOperation c').length = (readOperation c).length ∧
      (readOperation c').mark = (readOperation c).mark ∧
      (readOperation c').mnemonic = (readOperation c).mnemonic ∧
      ∃ range past cases cases',
        (readOperation c).operands =
          .text range :: .text ("UJP " ++ Address.dollarWord past) :: cases ∧
        (readOperation c').operands =
          .text range :: .text ("UJP " ++ Address.dollarWord (past + delta)) :: cases' ∧
        List.Forall₂ (Operand.Moved delta) cases cases' := by
  have hpast : ∀ n b, jumpTarget c'.image (c'.address + UInt16.ofNat n) (signed b) =
      jumpTarget c.image (c.address + UInt16.ofNat n) (signed b) + delta := by
    intro n b
    rw [← jumpTarget_moved ht, h.address]
    congr 1
    grind
  simp only [readOperation, h.ahead, h.mark, hp, hi, List.foldl_cons, List.foldl_nil, Reading.read,
    Reading.caseJump, Reading.jumped, Reading.implied, Reading.extend, aligned_moved h ht, hpast,
    Option.toList_none, List.map_nil, List.append_nil, List.nil_append]
  refine ⟨trivial, trivial, trivial, _, _, _, _, rfl, rfl, ?_⟩
  refine List.forall₂_map_left_iff.mpr (List.forall₂_map_right_iff.mpr ?_)
  refine List.forall₂_same.mpr fun k _ => ?_
  rw [selfRelative_moved h]
  exact .dollar _ _

/-- **One step** of p-code. -/
theorem instruction_moved : Relocated delta (Decoder.pcode.instruction c)
    (Decoder.pcode.instruction c') ∧ (read c').mark = (read c).mark := by
  have hline : ∀ {r r' : Reading}, r.Moved delta r' → r.mnemonic ≠ "XJP" →
      Relocated delta (r.instruction c) (r'.instruction c') ∧ r'.mark = r.mark := by
    intro r r' hr hname
    refine ⟨⟨⟨h.address, ?_, hr.mnemonic, map_template_eq hr.operands⟩,
      fun hx => absurd hx hname, fun _ => hr.operands⟩, hr.mark⟩
    simp only [Reading.instruction, h.ahead, hr.length]
  simp only [Decoder.instruction, read, inTable_moved h]
  split
  · exact hline (readSlot_moved h) (show "J/T" ≠ "XJP" by decide)
  · rcases params_entry_caseJump (c.ahead 0) with ⟨hp, hi, hn⟩ | ⟨hp, hn⟩
    · obtain ⟨hlen, hmark, hname, range, past, cases, cases', ho, ho', hcases⟩ :=
        readOperation_caseJump_moved h ht hp hi
      have hxjp : (readOperation c).mnemonic = "XJP" := by
        simp [readOperation, hp, hn, Reading.read, Reading.caseJump, Reading.jumped,
          Reading.implied, Reading.extend]
      refine ⟨⟨⟨h.address, ?_, hname, ?_⟩,
        fun _ => ⟨range, past, cases, cases', ho, ho', hcases⟩, fun hne => absurd hxjp hne⟩, hmark⟩
      · simp only [Reading.instruction, h.ahead, hlen]
      · simp only [Reading.instruction, ho, ho', List.map_cons, map_template_eq hcases]
        rfl
    · refine hline (readOperation_moved h ht hp) fun hx => hn ?_
      rw [← hx]
      exact mnemonic_readOperation_mem c

end Step

end PCode

/-! ### Listings -/

theorem listing_moved {d : Decoder} {c c' : Cursor} (hd : d ≠ .pcode) (h : c.Moved delta c') :
    List.Forall₂ (Instruction.Relocated delta) (d.listing c).instructions
        ((d.moved delta).listing c').instructions ∧
      ((d.moved delta).listing c').decoder = (d.listing c).decoder.moved delta := by
  have hrun := Decoder.forall₂_listing
    (Q := fun d c d' c' => d' = d.moved delta ∧ d ≠ .pcode ∧ c.Moved delta c')
    (R := Instruction.Relocated delta)
    (by
      rintro d c _ c' ⟨rfl, -, h⟩
      exact Decoder.hasWork_moved h d)
    (by
      rintro d c _ c' ⟨rfl, hd, h⟩
      have hline := Decoder.instruction_moved hd h
      have hmark : (d.moved delta).markAfter c' = d.markAfter c := by
        have hd' : d.moved delta ≠ .pcode := Decoder.moved_ne_pcode hd
        rw [Decoder.markAfter_of_ne_pcode hd, Decoder.markAfter_of_ne_pcode hd', h.mark]
      exact ⟨hline, Decoder.next_moved h d, Decoder.next_ne_pcode hd c,
        Decoder.advance_moved h hline.code hmark⟩)
    ⟨rfl, hd, h⟩
  exact ⟨hrun.1, hrun.2.1⟩

theorem PCode.listing_moved {c c' : Cursor} (h : c.Moved delta c')
    (ht : TableMoved delta c.image c'.image) :
    List.Forall₂ (Relocated delta) (Decoder.pcode.listing c).instructions
      (Decoder.pcode.listing c').instructions := by
  refine (Decoder.forall₂_listing (Q := fun d c d' c' => d = .pcode ∧ d' = .pcode ∧
    c.Moved delta c' ∧ TableMoved delta c.image c'.image) ?_ ?_ ⟨rfl, rfl, h, ht⟩).1
  · rintro _ c _ c' ⟨rfl, rfl, h, -⟩
    exact Decoder.hasWork_moved h .pcode
  · rintro _ c _ c' ⟨rfl, rfl, h, ht⟩
    obtain ⟨hline, hmark⟩ := instruction_moved h ht
    exact ⟨hline, rfl, rfl, Decoder.advance_moved h hline.code hmark, ht⟩

/-! ### Images loaded elsewhere -/

/-- The image loaded `delta` addresses further on. -/
def Image.relocate (m : Image) (delta : Address) : Image := { m with base := m.base + delta }

theorem Image.addressAt_relocate (m : Image) (delta : Address) (o : Nat) :
    (m.relocate delta).addressAt o = m.addressAt o + delta := by
  unfold addressAt relocate
  grind

theorem Cursor.moved_relocate (m : Image) (delta : Address) :
    Cursor.Moved delta { image := m } { image := m.relocate delta } :=
  ⟨m.addressAt_relocate delta 0, rfl, rfl, rfl⟩

theorem PCode.tableMoved_relocate (m : Image) (h : delta.toNat % 2 = 0) :
    TableMoved delta m (m.relocate delta) := by
  refine ⟨h, fun b _ => ?_⟩
  show (m.base + delta).move (slotOffset m (signed b)) - m.wordAt (slotOffset m (signed b)) = _
  rw [Address.move_add]
  unfold slotTarget
  grind

/-- **Loading an image elsewhere moves its listing.** The lines keep their code, mnemonics and
templates, and their addresses move. Outside p-code an operand moves only if it is the target of a
branch by a distance. In p-code, for a move by an even number, all addresses in operands move, and
so does the text of the jump past the table of a case jump. -/
theorem listing_relocates (m : Image) (delta : Address) :
    (∀ arch : Architecture, arch ≠ .pcode →
      List.Forall₂ (Instruction.Relocated delta) (arch.listing m).instructions
        (arch.listing { m with base := m.base + delta }).instructions) ∧
    (delta.toNat % 2 = 0 →
      List.Forall₂ (PCode.Relocated delta) (Architecture.pcode.listing m).instructions
        (Architecture.pcode.listing { m with base := m.base + delta }).instructions) := by
  refine ⟨fun arch harch => ?_, fun heven => ?_⟩
  · have hfresh : arch.decoder.moved delta = arch.decoder := by cases arch <;> rfl
    have hlines := (listing_moved (decoder_ne_pcode harch) (Cursor.moved_relocate m delta)).1
    rw [hfresh] at hlines
    exact hlines
  · exact PCode.listing_moved (Cursor.moved_relocate m delta) (PCode.tableMoved_relocate m heven)

/-- A branch that moves over the last address, and a case jump. -/
theorem listing_relocates_case_jump :
    let branch : Image := { base := 0xFFF0, bytes := #[0x20, 0xFE] }
    let jump : Image :=
      { base := 0x0000, bytes := #[0xAC, 0x00, 0x01, 0x00, 0x01, 0x00, 0xB9, 0x02, 0x04, 0x00] }
    let cases (a : Address) (past target : String) : Instruction :=
      { address := a
        code := [0xAC, 0x00, 0x01, 0x00, 0x01, 0x00, 0xB9, 0x02, 0x04, 0x00]
        mnemonic := "XJP"
        operands := [.text "Range 1..1", .text past, .bare target (a + 4)] }
    (Architecture.z80.listing branch).instructions =
        [{ address := 0xFFF0, code := [0x20, 0xFE], mnemonic := "JR",
           operands := [.text "NZ", .bare "FFF0H" 0xFFF0] }] ∧
      List.Forall₂ (Instruction.Relocated 0x20) (Architecture.z80.listing branch).instructions
        [{ address := 0x0010, code := [0x20, 0xFE], mnemonic := "JR",
           operands := [.text "NZ", .bare "0010H" 0x0010] }] ∧
      (Architecture.pcode.listing jump).instructions = [cases 0 "UJP $000A" "$0004"] ∧
      List.Forall₂ (PCode.Relocated 0x1002) (Architecture.pcode.listing jump).instructions
        [cases 0x1002 "UJP $100C" "$1006"] := by
  intro branch jump cases
  have hbranch := (listing_relocates branch 0x20).1 .z80 (by decide)
  have hjump := (listing_relocates jump 0x1002).2 (by decide)
  refine ⟨by decide +kernel, ?_, by decide +kernel, ?_⟩
  · have hmoved : (Architecture.z80.listing
        { branch with base := branch.base + 0x20 }).instructions =
        [{ address := 0x0010, code := [0x20, 0xFE], mnemonic := "JR",
           operands := [.text "NZ", .bare "0010H" 0x0010] }] := by decide +kernel
    rwa [← hmoved]
  · have hmoved : (Architecture.pcode.listing
        { jump with base := jump.base + 0x1002 }).instructions =
        [cases 0x1002 "UJP $100C" "$1006"] := by decide +kernel
    rwa [← hmoved]

end Disassembly
