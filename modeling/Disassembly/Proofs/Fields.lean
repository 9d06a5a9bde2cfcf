import Disassembly.Proofs.Mnemonics

/-! # Fields and spellings of the Z80

The tables of the Z80 can be listed as text: for each opcode a mnemonic, the spellings of its
operands with placeholders such as `data` or `(add)`, and the fields of its encoding. The decoder
looks at neither spellings nor fields, and yet the listing says all that it does:

* `Form.congr_of_fields`: the opcode bits of the listed fields choose the mnemonic and the operands;
* `Form.Stands.fields_agree`: the other fields are the bytes behind the opcode, and an operand is
  its spelling with the placeholder filled in (`Head.spelled`);
* `decode_spelled`: so every instruction that is read is what the listing says of its opcode. -/

namespace Disassembly.Z80

/-! ### Fields -/

namespace Field

/-- What an opcode has in the bits of a field. -/
def choice (opcode : UInt8) : Field → Nat
  | destination | condition | arithmetic | restart | bit => opcode.toNat / 8 % 8
  | source => opcode.toNat % 8
  | pair | stackPair => opcode.toNat / 16 % 4
  | pointerPair => opcode.toNat / 16 % 2
  | branchCondition | block => opcode.toNat / 8 % 4
  | wordLow | wordHigh | byte | offset | addressLow | addressHigh | device | page | override => 0

/-- The number of bytes behind the opcode that a field is read from. -/
def size : Field → Nat
  | wordLow | wordHigh | byte | offset | addressLow | addressHigh | device => 1
  | destination | condition | arithmetic | restart | bit | source | pair | stackPair | pointerPair
  | branchCondition | block | page | override => 0

/-- The number of bytes behind the opcode that fields are read from. -/
def totalSize (fields : List Field) : Nat := fields.foldr (fun x n => x.size + n) 0

theorem mem_all (x : Field) : x ∈ all := by
  cases x <;> decide

end Field

section Choice

variable {b b' : UInt8}

theorem Part.pattern_congr {p : Part} (h : ∀ x ∈ p.fields, x.choice b = x.choice b') :
    p.pattern b = p.pattern b' := by
  cases p with
  | always p => rfl
  | destination | source | pair | stackPair | pointerPair | condition | branchCondition | restart
  | bit =>
    have hbits := h _ List.mem_cons_self
    simp only [Field.choice] at hbits
    simp only [pattern, hbits]

theorem Name.mnemonic_congr {n : Name} (h : ∀ x ∈ n.fields, x.choice b = x.choice b') :
    n.mnemonic b = n.mnemonic b' := by
  cases n with
  | one m => rfl
  | arithmetic | block =>
    have hbits := h _ List.mem_cons_self
    simp only [Field.choice] at hbits
    simp only [mnemonic, hbits]

theorem Form.mem_fields_operation {n : Name} {parts : List Part} {x : Field}
    (h : x ∈ n.fields ++ parts.flatMap Part.fields) : x ∈ (operation n parts).fields :=
  List.mem_filter.mpr ⟨x.mem_all, List.contains_iff_mem.mpr h⟩

/-- **Opcodes that agree in the listed fields of a form are alike.** -/
theorem Form.congr_of_fields {f : Form} (h : ∀ x ∈ f.fields, x.choice b = x.choice b') :
    f.mnemonic b = f.mnemonic b' ∧ f.patterns b = f.patterns b' := by
  cases f with
  | page | override | undefined => exact ⟨rfl, rfl⟩
  | operation n parts =>
    refine ⟨Name.mnemonic_congr fun x hx => ?_, List.map_congr_left fun p hp => ?_⟩
    · exact h x (mem_fields_operation (List.mem_append_left _ hx))
    · refine Part.pattern_congr fun x hx => h x (mem_fields_operation ?_)
      exact List.mem_append_right _ (List.mem_flatMap.mpr ⟨p, hp, hx⟩)

end Choice

/-! ### Spellings -/

/-- What stands around a placeholder in a text, which has it alone or in brackets. -/
def framed? (placeholder text : String) : Option (String → String) :=
  if text = placeholder then some id
  else if text = "(" ++ placeholder ++ ")" then some fun value => "(" ++ value ++ ")"
  else none

/-- The operand that a spelling stands for in an instruction with the fields: what is read from the
bytes behind the opcode takes the place of the placeholder. -/
def Head.spelled (h : Head) (a : Address) (s : ByteStream) (fields : List Field) (text : String) :
    Operand :=
  let byte := byteText (s h.length)
  let word := s.word h.length
  let target := h.jumpTarget a s
  if text = "HL" then .text h.pairText
  else if text = "(HL)" then .text (h.memoryText s)
  else if let some around := framed? "data" text then
    .text (around (if fields.contains .wordLow then wordText word else byte))
  else if let some around := framed? "add" text then .place (around slot) (wordText word) word
  else if let some around := framed? "port" text then .text (around byte)
  else if let some around := framed? "offset" text then
    .place (around slot) (wordText target) target
  else .text text

/-- The texts that `Head.spelled` replaces. -/
def placeholders : List String :=
  ["HL", "(HL)", "data", "(data)", "add", "(add)", "port", "(port)", "offset", "(offset)"]

/-- Whether the spelling of a pattern can be told from that of others with the fields at hand. -/
def Pattern.isClear (fields : List Field) : Pattern → Bool
  | fixed t => !placeholders.contains t
  | word => fields.contains .wordLow
  | byte => !fields.contains .wordLow
  | hl | atHl | address | atAddress | offset | device => true

theorem Head.spelled_spelling {fields : List Field} {p : Pattern} (hp : p.isClear fields = true)
    (h : Head) (a : Address) (s : ByteStream) :
    h.spelled a s fields p.spelling = h.operand a s p := by
  cases p with
  | hl | atHl | address | atAddress | offset | device => rfl
  | word =>
    have hfields : fields.contains .wordLow = true := hp
    simp only [Pattern.spelling, spelled, hfields]
    rfl
  | byte =>
    have hfields : fields.contains .wordLow = false := by simpa [Pattern.isClear] using hp
    simp only [Pattern.spelling, spelled, hfields]
    rfl
  | fixed t =>
    have ht : t ∉ placeholders := by simpa [Pattern.isClear] using hp
    simp only [placeholders, List.mem_cons, List.not_mem_nil, or_false, not_or] at ht
    simp [Pattern.spelling, spelled, operand, framed?, ht]

/-! ### The tables -/

/-- The fields and spellings of a form agree with what is read for an opcode: there is a mnemonic
exactly if the form is defined, the fields are as many bytes as the patterns, and the spellings are
clear. -/
def Form.agrees (f : Form) (opcode : UInt8) : Bool :=
  f.isDefined == (f.mnemonic opcode != undefinedMnemonic) &&
    Field.totalSize f.fields == (f.patterns opcode).foldr (fun p n => p.size + n) 0 &&
    (f.patterns opcode).all (Pattern.isClear f.fields)

set_option maxRecDepth 4000 in
theorem agrees_mainForm : ∀ b, (mainForm b).agrees b = true := forall_byte (by decide)

set_option maxRecDepth 4000 in
theorem agrees_form (p : Page) : ∀ b, (p.form b).agrees b = true := by
  cases p <;> exact forall_byte (by decide)

/-- **The listed fields and spellings agree with the patterns**, for every entry of a table. -/
theorem Form.Stands.fields_agree {f : Form} {b : UInt8} (hf : f.Stands b) :
    (f.isDefined = true ↔ f.mnemonic b ≠ undefinedMnemonic) ∧
    Field.totalSize f.fields = (f.patterns b).foldr (fun p n => p.size + n) 0 ∧
    ∀ p ∈ f.patterns b, ∀ (h : Head) (a : Address) (s : ByteStream),
      h.spelled a s f.fields p.spelling = h.operand a s p := by
  have hagrees : f.agrees b = true := by
    rcases hf with rfl | ⟨p, rfl⟩
    · exact agrees_mainForm b
    · exact agrees_form p b
  simp only [agrees, Bool.and_eq_true, beq_iff_eq, List.all_eq_true] at hagrees
  obtain ⟨⟨hdefined, hsize⟩, hclear⟩ := hagrees
  refine ⟨?_, hsize, fun p hp h a s => Head.spelled_spelling (hclear p hp) h a s⟩
  rw [hdefined, bne_iff_ne]

/-- **Every instruction is what the listing says of its opcode.** It has the mnemonic of the entry,
which is undefined exactly if the entry is; its operands are the spellings, filled in from the bytes
behind the opcode; and it takes as many of these as the entry has fields, with one more for a
displacement that comes last. -/
theorem decode_spelled (a : Address) (s : ByteStream) :
    let h := Head.read s
    let f := (h.entry s).1
    let b := (h.entry s).2
    (decode a s).mnemonic = f.mnemonic b ∧
    (f.isDefined = true ↔ (decode a s).mnemonic ≠ undefinedMnemonic) ∧
    (decode a s).operands = ((f.patterns b).map Pattern.spelling).map (h.spelled a s f.fields) ∧
    (decode a s).code.length =
      h.length + Field.totalSize f.fields + if h.isTrailing then 1 else 0 := by
  intro h f b
  obtain ⟨hf, hname, hpatterns⟩ := Head.read_eq_entry s
  obtain ⟨hdefined, hsize, hspelled⟩ := hf.fields_agree
  refine ⟨hname, ?_, ?_, ?_⟩
  · rw [show (decode a s).mnemonic = _ from hname]
    exact hdefined
  · show (Head.read s).patterns.map _ = _
    rw [hpatterns, List.map_map]
    exact List.map_congr_left fun p hp => (hspelled p hp _ a s).symm
  · rw [length_code_decode, Head.codeLength, Head.dataLength, hpatterns, ← hsize]

end Disassembly.Z80
